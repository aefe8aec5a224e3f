import Mathlib
import BitcoinAbc.Net.MerkleBlockTree

/-!
# What a partial Merkle tree proves

- `BitsToBytes_roundtrip`: the bits come back from the wire padded with `false`
  to a whole byte, and bytes come back exactly;
- `TraverseAndBuild_eq`: the constructor writes the depth-first encoding of the
  tree (`encodeNode`): a bit per visited node, and a hash where it stops;
- `TraverseAndExtract_encodeNode`: reading that encoding back uses all of it,
  returns the node of the Merkle tree and collects its matched leaves, as long
  as no two sibling nodes are equal (`SiblingsDiffer`); the induction is on the
  height;
- `ExtractMatches_make`: so the tree built from a list of ids, sent over the
  wire or not, gives back the Merkle root and the matched ids with their
  positions;
- `ExtractMatches_sound`: any tree whose extraction returns the Merkle root of
  a list of ids, with as many transactions, reports ids of that list at the
  positions it gives, when no pair its walk hashes (`walkPairs`) collides with
  a pair the Merkle tree of the ids hashes (`nodePairs`).
-/

namespace BitcoinAbc

namespace MerkleBlock

variable {α : Type} [Inhabited α]

/-! ## The bits on the wire -/

theorem toNat_toUInt8_shiftLeft (b : Bool) {s : Nat} (hs : s < 8) :
    (b.toUInt8 <<< s.toUInt8).toNat = b.toNat * 2 ^ s := by
  interval_cases s <;> cases b <;> rfl

theorem testBit_or_toUInt8_shiftLeft (x : UInt8) (b : Bool) {s : Nat} (hs : s < 8) (i : Nat) :
    (x ||| (b.toUInt8 <<< s.toUInt8)).toNat.testBit i = (x.toNat.testBit i || (b && i == s)) := by
  rw [UInt8.toNat_or, Nat.testBit_or, toNat_toUInt8_shiftLeft b hs]
  cases b
  · simp
  · by_cases his : i = s <;> simp [his, Ne.symm]

theorem and_one_shiftLeft_ne_zero (x : UInt8) {i : Nat} (hi : i < 8) :
    ((x &&& ((1 : UInt8) <<< i.toUInt8)) != 0) = x.toNat.testBit i := by
  have h1 : ((1 : UInt8) <<< i.toUInt8).toNat = 2 ^ i := by
    have := toNat_toUInt8_shiftLeft true hi
    rwa [Bool.toNat_true, one_mul] at this
  have h2 : (x &&& ((1 : UInt8) <<< i.toUInt8)).toNat = (x.toNat.testBit i).toNat * 2 ^ i := by
    rw [UInt8.toNat_and, h1, Nat.and_two_pow]
  rw [Bool.eq_iff_iff, bne_iff_ne, ne_eq, ← UInt8.toNat_inj, h2]
  cases x.toNat.testBit i <;> simp

/-- A byte is its eight bits. -/
theorem UInt8.eq_of_testBit_eq {x y : UInt8} (h : ∀ i < 8, x.toNat.testBit i = y.toNat.testBit i) :
    x = y := by
  rw [← UInt8.toNat_inj]
  apply Nat.eq_of_testBit_eq
  intro i
  by_cases hi : i < 8
  · exact h i hi
  · have hx : x.toNat < 2 ^ i :=
      lt_of_lt_of_le x.toNat_lt (Nat.pow_le_pow_right (by norm_num) (by omega))
    have hy : y.toNat < 2 ^ i :=
      lt_of_lt_of_le y.toNat_lt (Nat.pow_le_pow_right (by norm_num) (by omega))
    rw [Nat.testBit_eq_false_of_lt hx, Nat.testBit_eq_false_of_lt hy]

theorem getD_modify {β : Type} (l : List β) {q : Nat} (hq : q < l.length) (g : β → β) (j : Nat)
    (d : β) : (l.modify q g).getD j d = if q = j then g (l.getD j d) else l.getD j d := by
  rw [List.getD_eq_getElem?_getD, List.getElem?_modify, List.getD_eq_getElem?_getD]
  split
  · rename_i hqj
    subst hqj
    rw [List.getElem?_eq_getElem hq]
    rfl
  · cases l[j]? <;> rfl

/-- What the loop of `BitsToBytes` has written once the first `k` bits are
in: bit `i` of byte `j` is bit `8 * j + i`, where that is one of them. The
induction is on `k`. -/
theorem foldl_BitsToBytes (bits : List Bool) (m : Nat) :
    ∀ k, k ≤ 8 * m →
      let ret := (List.range k).foldl
        (fun ret p => ret.modify (p / 8) (· ||| ((bits.getD p false).toUInt8 <<< (p % 8).toUInt8)))
        (List.replicate m 0)
      ret.length = m ∧ ∀ j, ∀ i < 8,
        (ret.getD j 0).toNat.testBit i = (decide (8 * j + i < k) && bits.getD (8 * j + i) false)
  | 0, _ => by
    refine ⟨by simp, fun j i _ => ?_⟩
    simp only [List.range_zero, List.foldl_nil, List.getD_eq_getElem?_getD, List.getElem?_replicate]
    split <;> simp
  | k + 1, hk => by
    obtain ⟨hlen, hbits⟩ := foldl_BitsToBytes bits m k (by omega)
    dsimp only at hlen hbits ⊢
    rw [List.range_succ, List.foldl_append, List.foldl_cons, List.foldl_nil]
    refine ⟨by rw [List.length_modify, hlen], fun j i hi => ?_⟩
    rw [getD_modify _ (by rw [hlen]; omega)]
    split
    · -- the byte the new bit goes to
      rename_i hj
      subst hj
      rw [testBit_or_toUInt8_shiftLeft _ _ (Nat.mod_lt k (by norm_num)), hbits _ i hi]
      by_cases hik : i = k % 8
      · subst hik
        have hk' : 8 * (k / 8) + k % 8 = k := Nat.div_add_mod k 8
        simp [hk']
      · have hne : 8 * (k / 8) + i ≠ k := by omega
        have hiff : (8 * (k / 8) + i < k + 1) ↔ (8 * (k / 8) + i < k) := by omega
        simp [hik, hiff]
    · rename_i hj
      rw [hbits j i hi]
      have hiff : (8 * j + i < k + 1) ↔ (8 * j + i < k) := by omega
      simp only [hiff]

theorem length_BitsToBytes (bits : List Bool) : (BitsToBytes bits).length = (bits.length + 7) / 8 :=
  (foldl_BitsToBytes bits _ bits.length (by omega)).1

/-- Bit `i` of byte `j` of `BitsToBytes bits` is bit `8 * j + i`, `false`
past the end. -/
theorem testBit_BitsToBytes (bits : List Bool) (j : Nat) {i : Nat} (hi : i < 8) :
    ((BitsToBytes bits).getD j 0).toNat.testBit i =
      (decide (8 * j + i < bits.length) && bits.getD (8 * j + i) false) :=
  (foldl_BitsToBytes bits _ bits.length (by omega)).2 j i hi

/-- The bits come back from the wire padded with `false` to a whole byte. -/
theorem BytesToBits_BitsToBytes (bits : List Bool) :
    BytesToBits (BitsToBytes bits) =
      bits ++ List.replicate (8 * ((bits.length + 7) / 8) - bits.length) false := by
  apply List.ext_getElem
  · simp [BytesToBits, length_BitsToBytes]
    omega
  · intro p h1 h2
    simp only [BytesToBits, List.getElem_map, List.getElem_range]
    rw [and_one_shiftLeft_ne_zero _ (Nat.mod_lt p (by norm_num)), testBit_BitsToBytes _ _
      (Nat.mod_lt p (by norm_num)), Nat.div_add_mod, List.getElem_append]
    split
    · rename_i hp
      simp [hp]
    · rename_i hp
      simp [hp]

/-- Bytes come back from bits exactly. -/
theorem BitsToBytes_BytesToBits (bytes : List UInt8) : BitsToBytes (BytesToBits bytes) = bytes := by
  have hlen : (BytesToBits bytes).length = bytes.length * 8 := by simp [BytesToBits]
  apply List.ext_getElem
  · rw [length_BitsToBytes, hlen]
    omega
  · intro j h1 h2
    apply UInt8.eq_of_testBit_eq
    intro i hi
    rw [← List.getD_eq_getElem _ 0 h1, testBit_BitsToBytes _ _ hi, hlen]
    have hp : 8 * j + i < bytes.length * 8 := by omega
    rw [List.getD_eq_getElem _ _ (by rw [hlen]; exact hp)]
    simp only [BytesToBits, List.getElem_map, List.getElem_range]
    rw [and_one_shiftLeft_ne_zero _ (Nat.mod_lt _ (by norm_num))]
    have hdiv : (8 * j + i) / 8 = j := by omega
    have hmod : (8 * j + i) % 8 = i := by omega
    rw [hdiv, hmod, List.getD_eq_getElem _ _ h2, decide_eq_true hp, Bool.true_and]

/-- What `SERIALIZE_METHODS` does to the bits of a partial Merkle tree: read
back, they come padded with `false` to a whole byte; and bytes read are written
back as they were. -/
theorem BitsToBytes_roundtrip :
    (∀ bits : List Bool, BytesToBits (BitsToBytes bits) =
      bits ++ List.replicate (8 * ((bits.length + 7) / 8) - bits.length) false) ∧
    ∀ bytes : List UInt8, BitsToBytes (BytesToBits bytes) = bytes :=
  ⟨BytesToBits_BitsToBytes, BitsToBytes_BytesToBits⟩

/-! ## The encoding of a node -/

section Encoding

variable (Hash : α → α → α) (vTxid : List α) (vMatch : List Bool)

/-- The bits and hashes a depth-first walk writes for node `pos` of level `h`:
a bit for the node, whether a matched leaf is under it; then those of its
children where there is one, or else the node's hash. -/
def encodeNode : Nat → Nat → List Bool × List α
  | 0, pos => ([vMatch.getD pos false], [vTxid.getD pos default])
  | h + 1, pos =>
    if (leaves vTxid.length (h + 1) pos).any (vMatch.getD · false) then
      let left := encodeNode h (pos * 2)
      let right := if pos * 2 + 1 < treeWidth vTxid.length h then encodeNode h (pos * 2 + 1)
        else ([], [])
      (true :: (left.1 ++ right.1), left.2 ++ right.2)
    else ([false], [(level Hash vTxid (h + 1)).getD pos default])

variable {Hash vTxid vMatch}

/-- `TraverseAndBuild` appends the encoding of the node, on a non-empty list of
leaves, as long as the sum of `CalcTreeWidth` does not wrap. The induction is
on the height. -/
theorem TraverseAndBuild_eq (hne : vTxid ≠ []) :
    ∀ h pos, vTxid.length + 2 ^ h ≤ 2 ^ 32 → pos < treeWidth vTxid.length h → ∀ vBits vHash,
      TraverseAndBuild Hash vTxid.length vTxid vMatch h pos (vBits, vHash) =
        some (vBits ++ (encodeNode Hash vTxid vMatch h pos).1,
          vHash ++ (encodeNode Hash vTxid vMatch h pos).2)
  | 0, pos, hw, hpos, vBits, vHash => by
    have hp : pos < vTxid.length := by simpa using hpos
    simp [TraverseAndBuild, encodeNode, CalcHash_eq vTxid hne 0 pos hw hpos, parentOfMatch_eq,
      leaves_zero hp, level]
  | h + 1, pos, hw, hpos, vBits, vHash => by
    have hleft := left_lt_treeWidth hpos
    rw [TraverseAndBuild, encodeNode, parentOfMatch_eq]
    cases hm : (leaves vTxid.length (h + 1) pos).any (vMatch.getD · false)
    · -- no match below: the node's hash
      simp [CalcHash_eq vTxid hne (h + 1) pos hw hpos]
    · -- the walk descends into both children
      simp only [Bool.not_true, Bool.false_eq_true, if_false, if_true]
      rw [TraverseAndBuild_eq hne h (pos * 2) (fits_of_succ hw) hleft, Option.bind_eq_bind,
        Option.bind_some, CalcTreeWidth_eq (fits_of_succ hw)]
      split
      · rename_i hright
        rw [TraverseAndBuild_eq hne h (pos * 2 + 1) (fits_of_succ hw) hright]
        simp
      · simp

/-- The encoding holds at most one hash per leaf under the node. The
induction is on the height. -/
theorem length_encodeNode_hashes_le :
    ∀ h pos, pos < treeWidth vTxid.length h →
      (encodeNode Hash vTxid vMatch h pos).2.length ≤ (leaves vTxid.length h pos).length
  | 0, pos, hpos => by
    have hp : pos < vTxid.length := by simpa using hpos
    simp [encodeNode, leaves_zero hp]
  | h + 1, pos, hpos => by
    have hleft := left_lt_treeWidth hpos
    have hl := length_encodeNode_hashes_le h (pos * 2) hleft
    rw [encodeNode, leaves_succ, List.length_append]
    split
    · split
      · rename_i hright
        have hr := length_encodeNode_hashes_le h (pos * 2 + 1) hright
        simp only [List.length_append]
        omega
      · simp only [List.length_append, List.length_nil]
        omega
    · -- a node of the level has a leaf under it
      have hne := leaves_ne_nil hpos
      rw [leaves_succ, ← List.length_pos_iff, List.length_append] at hne
      simp only [List.length_singleton]
      omega

/-- The encoding holds at least one bit per hash. The induction is on the
height. -/
theorem length_encodeNode_hashes_le_bits :
    ∀ h pos, (encodeNode Hash vTxid vMatch h pos).2.length ≤ (encodeNode Hash vTxid vMatch h pos).1.length
  | 0, pos => by simp [encodeNode]
  | h + 1, pos => by
    have hl := length_encodeNode_hashes_le_bits h (pos * 2)
    have hr := length_encodeNode_hashes_le_bits h (pos * 2 + 1)
    rw [encodeNode]
    split
    · split
      · simp only [List.length_append, List.length_cons]
        omega
      · simp only [List.length_append, List.length_cons, List.length_nil]
        omega
    · simp

end Encoding

/-! ## Reading a node back -/

theorem cons_prefix_drop {β : Type} {l bs : List β} {n : Nat} {b : β} :
    b :: bs <+: l.drop n ↔ l[n]? = some b ∧ bs <+: l.drop (n + 1) := by
  by_cases hn : n < l.length
  · rw [List.drop_eq_getElem_cons hn, List.cons_prefix_cons, List.getElem?_eq_getElem hn,
      Option.some.injEq, eq_comm]
  · rw [List.drop_eq_nil_of_le (by omega), List.getElem?_eq_none (by omega)]
    simp

theorem getD_eq_of_getElem?_eq_some {β : Type} {l : List β} {n : Nat} {b : β} (d : β) (h : l[n]? = some b) :
    l.getD n d = b := by
  rw [List.getD_eq_getElem?_getD, h, Option.getD_some]

theorem append_prefix_drop {β : Type} {l xs ys : List β} {n : Nat} (h : xs ++ ys <+: l.drop n) :
    xs <+: l.drop n ∧ ys <+: l.drop (n + xs.length) := by
  obtain ⟨r, hr⟩ := h
  refine ⟨⟨ys ++ r, by rw [← hr, List.append_assoc]⟩, ⟨r, ?_⟩⟩
  rw [← List.drop_drop, ← hr, List.append_assoc, List.drop_left]

/-- The walk's state once it has read `nb` bits and `nh` hashes and collected
the leaves at positions `is` of `vTxid`. -/
def ExtractState.advance (st : ExtractState α) (vTxid : List α) (nb nh : Nat) (is : List Nat) :
    ExtractState α :=
  { st with nBitsUsed := st.nBitsUsed + nb, nHashUsed := st.nHashUsed + nh,
            vMatch := st.vMatch ++ is.map (vTxid.getD · default), vnIndex := st.vnIndex ++ is }

theorem ExtractState.advance_advance (st : ExtractState α) (vTxid : List α) (nb nh nb' nh' : Nat)
    (is is' : List Nat) :
    (st.advance vTxid nb nh is).advance vTxid nb' nh' is' =
      st.advance vTxid (nb + nb') (nh + nh') (is ++ is') := by
  simp [ExtractState.advance, Nat.add_assoc]

section Extract

variable [DecidableEq α]

/-- No two sibling nodes of the tree over `vTxid` are equal: on such a tree the
walk never takes a correct one for a bad one. -/
def SiblingsDiffer (Hash : α → α → α) (vTxid : List α) : Prop :=
  ∀ h < vTxid.length, ∀ i < (level Hash vTxid h).length / 2,
    (level Hash vTxid h).getD (2 * i) default ≠ (level Hash vTxid h).getD (2 * i + 1) default

instance (Hash : α → α → α) (vTxid : List α) : Decidable (SiblingsDiffer Hash vTxid) :=
  inferInstanceAs (Decidable (∀ h < vTxid.length, ∀ i < (level Hash vTxid h).length / 2,
    (level Hash vTxid h).getD (2 * i) default ≠ (level Hash vTxid h).getD (2 * i + 1) default))

variable {Hash : α → α → α} {vTxid : List α} {vMatch : List Bool} {t : CPartialMerkleTree α}

omit [DecidableEq α] in
theorem SiblingsDiffer.right_ne_left (hsib : SiblingsDiffer Hash vTxid) {h pos : Nat}
    (hright : pos * 2 + 1 < treeWidth vTxid.length h) :
    (level Hash vTxid h).getD (pos * 2 + 1) default ≠ (level Hash vTxid h).getD (pos * 2) default := by
  -- above the root every level has one node
  have hh : h < vTxid.length := by
    by_contra hle
    have := treeWidth_le_one vTxid.length h (by omega)
    omega
  have hi : pos < (level Hash vTxid h).length / 2 := by
    rw [length_level]
    omega
  have := hsib h hh pos hi
  rw [mul_comm 2 pos] at this
  exact Ne.symm this

/-- At a node where the walk does not descend, at height `0` or under a clear
flag bit, it reads one flag bit and one hash: the hash comes back, and it is
extracted as a match when the node is a leaf whose bit is set. -/
theorem TraverseAndExtract_stop {h pos : Nat} {st : ExtractState α} {b : Bool} {x : α}
    (hb : t.vBits[st.nBitsUsed]? = some b) (hx : t.vHash[st.nHashUsed]? = some x)
    (hstop : h = 0 ∨ b = false) :
    TraverseAndExtract Hash t h pos st =
      (x, { st with
              nBitsUsed := st.nBitsUsed + 1, nHashUsed := st.nHashUsed + 1,
              vMatch := st.vMatch ++ (if h = 0 ∧ b then [x] else []),
              vnIndex := st.vnIndex ++ (if h = 0 ∧ b then [pos] else []) }) := by
  have hbl : st.nBitsUsed < t.vBits.length := (List.getElem?_eq_some_iff.mp hb).1
  have hxl : st.nHashUsed < t.vHash.length := (List.getElem?_eq_some_iff.mp hx).1
  have hleaf : ∀ h', extractLeaf t h' pos b { st with nBitsUsed := st.nBitsUsed + 1 } =
      (x, { st with
              nBitsUsed := st.nBitsUsed + 1, nHashUsed := st.nHashUsed + 1,
              vMatch := st.vMatch ++ (if h' = 0 ∧ b then [x] else []),
              vnIndex := st.vnIndex ++ (if h' = 0 ∧ b then [pos] else []) }) := by
    intro h'
    rw [extractLeaf]
    dsimp only
    rw [if_neg (by omega), getD_eq_of_getElem?_eq_some default hx]
    split <;> simp_all
  rw [TraverseAndExtract, if_neg (by omega)]
  dsimp only
  rw [getD_eq_of_getElem?_eq_some false hb]
  -- a leaf is read whatever its bit; above it the bit is clear
  cases h with
  | zero => exact hleaf 0
  | succ h =>
    obtain rfl : b = false := hstop.resolve_left (Nat.succ_ne_zero h)
    exact hleaf (h + 1)

/-- The walk reads back the encoding of a node: it uses all of it, returns the
node and collects the matched leaves under it, as long as the sum of
`CalcTreeWidth` does not wrap. The induction is on the height. -/
theorem TraverseAndExtract_encodeNode (hsib : SiblingsDiffer Hash vTxid)
    (hN : t.nTransactions.toNat = vTxid.length) :
    ∀ h pos, vTxid.length + 2 ^ h ≤ 2 ^ 32 → pos < treeWidth vTxid.length h → ∀ st : ExtractState α,
      (encodeNode Hash vTxid vMatch h pos).1 <+: t.vBits.drop st.nBitsUsed →
      (encodeNode Hash vTxid vMatch h pos).2 <+: t.vHash.drop st.nHashUsed →
      TraverseAndExtract Hash t h pos st =
        ((level Hash vTxid h).getD pos default,
          st.advance vTxid (encodeNode Hash vTxid vMatch h pos).1.length
            (encodeNode Hash vTxid vMatch h pos).2.length
            ((leaves vTxid.length h pos).filter (vMatch.getD · false)))
  | 0, pos, _, hpos, st, hbits, hhash => by
    have hp : pos < vTxid.length := by simpa using hpos
    simp only [encodeNode] at hbits hhash ⊢
    obtain ⟨hb, -⟩ := cons_prefix_drop.mp hbits
    obtain ⟨hx, -⟩ := cons_prefix_drop.mp hhash
    rw [TraverseAndExtract_stop hb hx (.inl rfl), leaves_zero hp, List.filter_singleton]
    cases vMatch.getD pos false <;> simp [ExtractState.advance, level]
  | h + 1, pos, hw, hpos, st, hbits, hhash => by
    have hleft := left_lt_treeWidth hpos
    rw [encodeNode] at hbits hhash ⊢
    cases hm : (leaves vTxid.length (h + 1) pos).any (vMatch.getD · false)
    · -- no match below: the walk stops at the node
      simp only [hm, Bool.false_eq_true, if_false] at hbits hhash ⊢
      obtain ⟨hb, -⟩ := cons_prefix_drop.mp hbits
      obtain ⟨hx, -⟩ := cons_prefix_drop.mp hhash
      rw [TraverseAndExtract_stop hb hx (.inr rfl)]
      have hnil : (leaves vTxid.length (h + 1) pos).filter (vMatch.getD · false) = [] :=
        List.filter_eq_nil_iff.mpr (List.any_eq_false.mp hm)
      rw [hnil]
      simp [ExtractState.advance]
    · -- a match below: the walk descends into both children
      simp only [hm, if_true] at hbits hhash ⊢
      obtain ⟨hb, hbits⟩ := cons_prefix_drop.mp hbits
      obtain ⟨hbl, hbr⟩ := append_prefix_drop hbits
      obtain ⟨hhl, hhr⟩ := append_prefix_drop hhash
      have hbl' : st.nBitsUsed < t.vBits.length := (List.getElem?_eq_some_iff.mp hb).1
      rw [TraverseAndExtract, if_neg (by omega)]
      dsimp only
      rw [getD_eq_of_getElem?_eq_some false hb, Bool.not_true, if_neg Bool.false_ne_true,
        TraverseAndExtract_encodeNode hsib hN h (pos * 2) (fits_of_succ hw) hleft
          { st with nBitsUsed := st.nBitsUsed + 1 } hbl hhl]
      dsimp only
      rw [hN, CalcTreeWidth_eq (fits_of_succ hw), getD_level_succ vTxid hpos, leaves_succ,
        List.filter_append]
      split
      · rename_i hright
        rw [if_pos hright] at hbr hhr
        rw [TraverseAndExtract_encodeNode hsib hN h (pos * 2 + 1) (fits_of_succ hw) hright _ hbr hhr]
        dsimp only
        rw [if_neg (hsib.right_ne_left hright)]
        simp [ExtractState.advance]
        omega
      · -- past the end of the level: the left child twice, and no leaf on the right
        rename_i hright
        have hnil : leaves vTxid.length h (pos * 2 + 1) = [] := leaves_eq_nil_of_le (by omega)
        rw [hnil]
        simp [ExtractState.advance]
        omega

/-- The positions of the first `n` leaves that `vMatch` marks, in order. -/
def matchedPositions (vMatch : List Bool) (n : Nat) : List Nat :=
  (List.range n).filter (vMatch.getD · false)

/-- `ExtractMatches` on a tree that holds the encoding of the root, its bits
padded within the last byte: the Merkle root and the matched leaves with their
positions, and the tree left good. -/
theorem ExtractMatches_encodeNode (hne : vTxid ≠ []) (h31 : vTxid.length ≤ 2 ^ 31)
    (hsib : SiblingsDiffer Hash vTxid) (hN : t.nTransactions.toNat = vTxid.length) {pad : List Bool}
    (hbits : t.vBits = (encodeNode Hash vTxid vMatch (treeHeight vTxid.length) 0).1 ++ pad)
    (hpad : ((encodeNode Hash vTxid vMatch (treeHeight vTxid.length) 0).1.length + 7) / 8 =
      (t.vBits.length + 7) / 8)
    (hhash : t.vHash = (encodeNode Hash vTxid vMatch (treeHeight vTxid.length) 0).2)
    (hgood : t.fBad = false) (vnIndex : List Nat) :
    t.ExtractMatches Hash vnIndex =
      (merkleRootRef Hash vTxid, (matchedPositions vMatch vTxid.length).map (vTxid.getD · default),
        vnIndex ++ matchedPositions vMatch vTxid.length, t) := by
  have hn : 0 < vTxid.length := List.length_pos_of_ne_nil hne
  have hroot : 0 < treeWidth vTxid.length (treeHeight vTxid.length) := by
    rw [treeWidth_treeHeight hn h31]
    exact Nat.one_pos
  -- the checks before the walk: at most one hash per leaf, and a bit per hash
  have hleaves : (encodeNode Hash vTxid vMatch (treeHeight vTxid.length) 0).2.length ≤
      (leaves vTxid.length (treeHeight vTxid.length) 0).length :=
    length_encodeNode_hashes_le _ _ hroot
  rw [leaves_treeHeight h31, List.length_range] at hleaves
  have hbh : (encodeNode Hash vTxid vMatch (treeHeight vTxid.length) 0).2.length ≤
      (encodeNode Hash vTxid vMatch (treeHeight vTxid.length) 0).1.length :=
    length_encodeNode_hashes_le_bits _ _
  have hwalk := TraverseAndExtract_encodeNode hsib hN _ _ (fits_of_le_treeHeight h31 le_rfl) hroot
    ⟨0, 0, [], vnIndex, t.fBad⟩
    (by rw [hbits]; exact List.prefix_append _ _) (by rw [hhash]; exact List.prefix_refl _)
  rw [CPartialMerkleTree.ExtractMatches, hN, if_neg (by omega), hhash, if_neg (by omega),
    ← hhash, if_neg (by rw [hbits, hhash, List.length_append]; omega)]
  dsimp only
  rw [hwalk]
  simp only [ExtractState.advance, hgood, Bool.false_eq_true, if_false, zero_add]
  have ht : { t with fBad := false } = t := by
    cases t
    subst hgood
    rfl
  rw [if_neg (fun h => h hpad), ← hhash, if_neg (fun h => h rfl), leaves_treeHeight h31,
    ← merkleRootRef_eq_level Hash hne h31, ht, List.nil_append]
  rfl

/-- The tree built from a non-empty list of at most `2^31` transaction ids
whose sibling nodes differ, as it is or read back from the wire, gives back the
Merkle root of the ids and the matched ids with their positions, and stays
good. -/
theorem ExtractMatches_make (Hash : α → α → α) {vTxid : List α} (hne : vTxid ≠ [])
    (h31 : vTxid.length ≤ 2 ^ 31) (hsib : SiblingsDiffer Hash vTxid) (vMatch : List Bool)
    (vnIndex : List Nat) :
    ∃ t, CPartialMerkleTree.make Hash vTxid vMatch = some t ∧ t.nTransactions.toNat = vTxid.length ∧
      t.ExtractMatches Hash vnIndex =
        (merkleRootRef Hash vTxid, (matchedPositions vMatch vTxid.length).map (vTxid.getD · default),
          vnIndex ++ matchedPositions vMatch vTxid.length, t) ∧
      t.reread.ExtractMatches Hash vnIndex =
        (merkleRootRef Hash vTxid, (matchedPositions vMatch vTxid.length).map (vTxid.getD · default),
          vnIndex ++ matchedPositions vMatch vTxid.length, t.reread) := by
  have hN : vTxid.length.toUInt32.toNat = vTxid.length := by
    rw [Nat.toUInt32, UInt32.toNat_ofNat', Nat.mod_eq_of_lt (by omega)]
  have hroot : 0 < treeWidth vTxid.length (treeHeight vTxid.length) := by
    rw [treeWidth_treeHeight (List.length_pos_of_ne_nil hne) h31]
    exact Nat.one_pos
  set enc := encodeNode Hash vTxid vMatch (treeHeight vTxid.length) 0 with henc
  refine ⟨⟨vTxid.length.toUInt32, enc.1, enc.2, false⟩, ?_, hN, ?_, ?_⟩
  · rw [CPartialMerkleTree.make, hN, TraverseAndBuild_eq hne _ _ (fits_of_le_treeHeight h31 le_rfl) hroot]
    rfl
  · exact ExtractMatches_encodeNode hne h31 hsib hN (List.append_nil _).symm rfl rfl rfl vnIndex
  · -- on the wire the bits are padded with `false` to a whole byte
    have hbits : (CPartialMerkleTree.reread ⟨vTxid.length.toUInt32, enc.1, enc.2, false⟩).vBits =
        enc.1 ++ List.replicate (8 * ((enc.1.length + 7) / 8) - enc.1.length) false :=
      BytesToBits_BitsToBytes enc.1
    apply ExtractMatches_encodeNode hne h31 hsib hN hbits _ rfl rfl vnIndex
    rw [hbits, List.length_append, List.length_replicate, ← henc]
    omega

/-- Over `[1, 2, 3]` with the second leaf matched, with a hash of pairs on
numbers. -/
example :
    ∃ t, CPartialMerkleTree.make (fun a b : Nat => a * 100 + b) [1, 2, 3] [false, true, false] = some t ∧
      t.ExtractMatches (fun a b : Nat => a * 100 + b) [] = (10503, [2], [1], t) ∧
      t.reread.ExtractMatches (fun a b : Nat => a * 100 + b) [] = (10503, [2], [1], t.reread) := by
  have hroot : merkleRootRef (fun a b : Nat => a * 100 + b) [1, 2, 3] = 10503 := by
    simp [merkleRootRef, pairLevel]
  obtain ⟨t, hmake, -, hext, hwire⟩ := ExtractMatches_make (fun a b : Nat => a * 100 + b)
    (show [1, 2, 3] ≠ ([] : List Nat) by decide) (by decide) (by decide) [false, true, false] []
  rw [hroot] at hext hwire
  exact ⟨t, hmake, hext, hwire⟩

end Extract

/-! ## What any tree proves -/

/-- The pairs the Merkle tree over `vTxid` hashes under the node at height `h`
and position `pos`, children first: at each node its two children, the left
one twice where there is no right one. -/
def nodePairs (Hash : α → α → α) (vTxid : List α) : Nat → Nat → List (α × α)
  | 0, _ => []
  | h + 1, pos =>
    nodePairs Hash vTxid h (pos * 2) ++
      (if pos * 2 + 1 < treeWidth vTxid.length h then nodePairs Hash vTxid h (pos * 2 + 1) else []) ++
      [((level Hash vTxid h).getD (pos * 2) default,
        if pos * 2 + 1 < treeWidth vTxid.length h then (level Hash vTxid h).getD (pos * 2 + 1) default
        else (level Hash vTxid h).getD (pos * 2) default)]

/-- The pairs `TraverseAndExtract` hashes from the node at height `height` and
position `pos`, children first, as it computes them. -/
def walkPairs [DecidableEq α] (Hash : α → α → α) (t : CPartialMerkleTree α) :
    Nat → Nat → ExtractState α → List (α × α)
  | height, pos, st =>
    if st.nBitsUsed ≥ t.vBits.length then []
    else
      let fParentOfMatch := t.vBits.getD st.nBitsUsed false
      let st := { st with nBitsUsed := st.nBitsUsed + 1 }
      match height with
      | 0 => []
      | height + 1 =>
        if !fParentOfMatch then []
        else
          let (left, stL) := TraverseAndExtract Hash t height (pos * 2) st
          if pos * 2 + 1 < CalcTreeWidth t.nTransactions.toNat height then
            walkPairs Hash t height (pos * 2) st ++ walkPairs Hash t height (pos * 2 + 1) stL ++
              [(left, (TraverseAndExtract Hash t height (pos * 2 + 1) stL).1)]
          else walkPairs Hash t height (pos * 2) st ++ [(left, left)]

/-- `Hash` maps no pair of `P` and pair of `Q` that differ to the same hash. -/
def NoCollision (Hash : α → α → α) (P Q : List (α × α)) : Prop :=
  ∀ p ∈ P, ∀ q ∈ Q, Hash p.1 p.2 = Hash q.1 q.2 → p = q

omit [Inhabited α] in
theorem NoCollision.mono {Hash : α → α → α} {P Q P' Q' : List (α × α)} (h : NoCollision Hash P Q)
    (hP : P' ⊆ P) (hQ : Q' ⊆ Q) : NoCollision Hash P' Q' :=
  fun p hp q hq => h p (hP hp) q (hQ hq)

/-- After `st`, `st'` has collected the leaves of `vTxid` at some of the
positions `ps`, in their order. -/
def ExtractState.Collects (st : ExtractState α) (vTxid : List α) (ps : List Nat)
    (st' : ExtractState α) : Prop :=
  ∃ is, is.Sublist ps ∧ st'.vnIndex = st.vnIndex ++ is ∧
    st'.vMatch = st.vMatch ++ is.map (vTxid.getD · default)

section Collects

variable {vTxid : List α} {ps qs : List Nat} {st st' st'' : ExtractState α}

theorem ExtractState.Collects.of_eq (hi : st'.vnIndex = st.vnIndex) (hm : st'.vMatch = st.vMatch) :
    st.Collects vTxid ps st' :=
  ⟨[], List.nil_sublist _, by rw [hi, List.append_nil], by rw [hm, List.map_nil, List.append_nil]⟩

theorem ExtractState.Collects.trans (h1 : st.Collects vTxid ps st') (h2 : st'.Collects vTxid qs st'') :
    st.Collects vTxid (ps ++ qs) st'' := by
  obtain ⟨is, his, hi, hm⟩ := h1
  obtain ⟨js, hjs, hj, hm'⟩ := h2
  exact ⟨is ++ js, his.append hjs, by rw [hj, hi, List.append_assoc],
    by rw [hm', hm, List.map_append, List.append_assoc]⟩

theorem ExtractState.Collects.congr (h : st.Collects vTxid ps st') (hi : st''.vnIndex = st'.vnIndex)
    (hm : st''.vMatch = st'.vMatch) : st.Collects vTxid ps st'' := by
  obtain ⟨is, his, hi', hm'⟩ := h
  exact ⟨is, his, hi.trans hi', hm.trans hm'⟩

end Collects

/-- `extractLeaf` collects a leaf only at height `0`, and then the hash it
returns, at the node's position. -/
theorem extractLeaf_collects (t : CPartialMerkleTree α) (height pos : Nat) (f : Bool)
    (st : ExtractState α) :
    ((extractLeaf t height pos f st).2.vnIndex = st.vnIndex ∧
      (extractLeaf t height pos f st).2.vMatch = st.vMatch) ∨
    (height = 0 ∧ (extractLeaf t height pos f st).2.vnIndex = st.vnIndex ++ [pos] ∧
      (extractLeaf t height pos f st).2.vMatch = st.vMatch ++ [(extractLeaf t height pos f st).1]) := by
  unfold extractLeaf
  split
  · exact Or.inl ⟨rfl, rfl⟩
  · split
    · rename_i h
      exact Or.inr ⟨h.1, rfl, rfl⟩
    · exact Or.inl ⟨rfl, rfl⟩

section Sound

variable [DecidableEq α] {Hash : α → α → α} {vTxid : List α} {t : CPartialMerkleTree α}

/-- A walk that returns the node of the Merkle tree over `vTxid` collects
leaves under the node, each with its id, when no pair it hashes collides with a
pair the tree hashes under the node, and the sum of `CalcTreeWidth` does not
wrap: equal hashes then have equal children all the way down. The induction is
on the height. -/
theorem TraverseAndExtract_sound (hN : t.nTransactions.toNat = vTxid.length) :
    ∀ h pos (st : ExtractState α), vTxid.length + 2 ^ h ≤ 2 ^ 32 → pos < treeWidth vTxid.length h →
      NoCollision Hash (walkPairs Hash t h pos st) (nodePairs Hash vTxid h pos) →
      (TraverseAndExtract Hash t h pos st).1 = (level Hash vTxid h).getD pos default →
      st.Collects vTxid (leaves vTxid.length h pos) (TraverseAndExtract Hash t h pos st).2
  | 0, pos, st, _, hpos, _, hroot => by
    have hp : pos < vTxid.length := by simpa using hpos
    rw [TraverseAndExtract] at hroot ⊢
    by_cases hb : st.nBitsUsed ≥ t.vBits.length
    · rw [if_pos hb]
      exact ExtractState.Collects.of_eq rfl rfl
    · rw [if_neg hb] at hroot ⊢
      dsimp only at hroot ⊢
      rcases extractLeaf_collects t 0 pos (t.vBits.getD st.nBitsUsed false)
        { st with nBitsUsed := st.nBitsUsed + 1 } with ⟨hi, hm⟩ | ⟨-, hi, hm⟩
      · exact ExtractState.Collects.of_eq hi hm
      · -- the collected hash is the leaf: the id at the position
        refine ⟨[pos], by rw [leaves_zero hp], hi, ?_⟩
        rw [hm, hroot]
        rfl
  | h + 1, pos, st, hw, hpos, hinj, hroot => by
    have hleft := left_lt_treeWidth hpos
    rw [TraverseAndExtract] at hroot ⊢
    rw [walkPairs] at hinj
    by_cases hb : st.nBitsUsed ≥ t.vBits.length
    · rw [if_pos hb]
      exact ExtractState.Collects.of_eq rfl rfl
    rw [if_neg hb] at hroot hinj ⊢
    dsimp only at hroot hinj ⊢
    cases hbit : t.vBits.getD st.nBitsUsed false
    · -- the walk stops: no leaf is collected above height `0`
      rw [hbit] at hroot
      rw [Bool.not_false, if_pos rfl] at hroot ⊢
      rcases extractLeaf_collects t (h + 1) pos false { st with nBitsUsed := st.nBitsUsed + 1 } with
        ⟨hi, hm⟩ | ⟨habs, -, -⟩
      · exact ExtractState.Collects.of_eq hi hm
      · exact absurd habs (Nat.succ_ne_zero h)
    · -- the walk descends: the children it returns are those of the node
      rw [hbit] at hroot hinj
      rw [Bool.not_true, if_neg Bool.false_ne_true, hN, CalcTreeWidth_eq (fits_of_succ hw)] at hroot hinj ⊢
      rw [getD_level_succ vTxid hpos] at hroot
      rw [nodePairs] at hinj
      generalize hL : TraverseAndExtract Hash t h (pos * 2) { st with nBitsUsed := st.nBitsUsed + 1 } = L
        at hroot hinj ⊢
      obtain ⟨left, stL⟩ := L
      dsimp only at hroot hinj ⊢
      rw [leaves_succ]
      by_cases hright : pos * 2 + 1 < treeWidth vTxid.length h
      · simp only [hright, if_true] at hroot hinj ⊢
        generalize hR : TraverseAndExtract Hash t h (pos * 2 + 1) stL = R at hroot hinj ⊢
        obtain ⟨right, stR⟩ := R
        dsimp only at hroot hinj ⊢
        -- the pair hashed here is the node's pair, and the children's pairs are among those above
        obtain ⟨hl, hr⟩ := Prod.mk.inj (hinj _ (List.mem_append_right _ (List.mem_singleton_self _)) _
          (List.mem_append_right _ (List.mem_singleton_self _)) hroot)
        have ihl := TraverseAndExtract_sound hN h (pos * 2) { st with nBitsUsed := st.nBitsUsed + 1 }
          (fits_of_succ hw) hleft
          (hinj.mono (fun _ hp => List.mem_append_left _ (List.mem_append_left _ hp))
            fun _ hq => List.mem_append_left _ (List.mem_append_left _ hq))
          (by rw [hL]; exact hl)
        have ihr := TraverseAndExtract_sound hN h (pos * 2 + 1) stL (fits_of_succ hw) hright
          (hinj.mono (fun _ hp => List.mem_append_left _ (List.mem_append_right _ hp))
            fun _ hq => List.mem_append_left _ (List.mem_append_right _ hq))
          (by rw [hR]; exact hr)
        rw [hL] at ihl
        rw [hR] at ihr
        -- a flagged tree keeps what it collected
        exact (ExtractState.Collects.trans ihl ihr).congr (by split <;> rfl) (by split <;> rfl)
      · simp only [hright, if_false, List.append_nil] at hroot hinj ⊢
        obtain ⟨hl, -⟩ := Prod.mk.inj (hinj _ (List.mem_append_right _ (List.mem_singleton_self _)) _
          (List.mem_append_right _ (List.mem_singleton_self _)) hroot)
        have ihl := TraverseAndExtract_sound hN h (pos * 2) { st with nBitsUsed := st.nBitsUsed + 1 }
          (fits_of_succ hw) hleft
          (hinj.mono (fun _ hp => List.mem_append_left _ hp) fun _ hq => List.mem_append_left _ hq)
          (by rw [hL]; exact hl)
        rw [hL] at ihl
        have hnil : leaves vTxid.length h (pos * 2 + 1) = [] := leaves_eq_nil_of_le (by omega)
        rw [hnil, List.append_nil]
        exact ihl

/-- `ExtractMatches` returns something other than `uint256()` only from a walk
over the whole tree that passed every check. -/
theorem ExtractMatches_of_ne_default {vnIndex : List Nat} (h : (t.ExtractMatches Hash vnIndex).1 ≠ default) :
    0 < t.nTransactions.toNat ∧
      t.ExtractMatches Hash vnIndex =
        ((TraverseAndExtract Hash t (treeHeight t.nTransactions.toNat) 0 ⟨0, 0, [], vnIndex, t.fBad⟩).1,
          (TraverseAndExtract Hash t (treeHeight t.nTransactions.toNat) 0 ⟨0, 0, [], vnIndex, t.fBad⟩).2.vMatch,
          (TraverseAndExtract Hash t (treeHeight t.nTransactions.toNat) 0 ⟨0, 0, [], vnIndex, t.fBad⟩).2.vnIndex,
          { t with fBad :=
            (TraverseAndExtract Hash t (treeHeight t.nTransactions.toNat) 0 ⟨0, 0, [], vnIndex, t.fBad⟩).2.fBad }) := by
  unfold CPartialMerkleTree.ExtractMatches at h ⊢
  dsimp only at h ⊢
  generalize TraverseAndExtract Hash t (treeHeight t.nTransactions.toNat) 0 ⟨0, 0, [], vnIndex, t.fBad⟩ = r
    at h ⊢
  obtain ⟨root, st⟩ := r
  dsimp only at h ⊢
  -- every failed check returns `uint256()`
  split_ifs at h ⊢ with h0 h1 h2 h3 h4 h5
  all_goals first | exact absurd rfl h | skip
  exact ⟨Nat.pos_of_ne_zero h0, rfl⟩

/-- A tree with as many transactions as `vTxid` whose extraction returns the
Merkle root of `vTxid`, when that is not `uint256()`, reports the ids of
`vTxid` at the positions it gives, those in increasing order, when `vTxid` has
at most `2^31` ids and no pair the walk hashes collides with a pair the tree
over `vTxid` hashes. -/
theorem ExtractMatches_sound (Hash : α → α → α) {vTxid : List α} (t : CPartialMerkleTree α)
    (vnIndex : List Nat) (hN : t.nTransactions.toNat = vTxid.length) (h31 : vTxid.length ≤ 2 ^ 31)
    (hinj : NoCollision Hash (walkPairs Hash t (treeHeight vTxid.length) 0 ⟨0, 0, [], vnIndex, t.fBad⟩)
      (nodePairs Hash vTxid (treeHeight vTxid.length) 0))
    (hnull : merkleRootRef Hash vTxid ≠ default)
    (hroot : (t.ExtractMatches Hash vnIndex).1 = merkleRootRef Hash vTxid) :
    ∃ is, is.Sublist (List.range vTxid.length) ∧ (t.ExtractMatches Hash vnIndex).2.2.1 = vnIndex ++ is ∧
      (t.ExtractMatches Hash vnIndex).2.1 = is.map (vTxid.getD · default) := by
  obtain ⟨hn, heq⟩ := ExtractMatches_of_ne_default (hroot ▸ hnull)
  rw [heq] at hroot ⊢
  dsimp only at hroot ⊢
  rw [hN] at hn hroot ⊢
  have hne : vTxid ≠ [] := List.ne_nil_of_length_pos hn
  have hw : 0 < treeWidth vTxid.length (treeHeight vTxid.length) := by
    rw [treeWidth_treeHeight hn h31]
    exact Nat.one_pos
  rw [merkleRootRef_eq_level Hash hne h31] at hroot
  obtain ⟨is, his, hi, hm⟩ :=
    TraverseAndExtract_sound hN _ 0 _ (fits_of_le_treeHeight h31 le_rfl) hw hinj hroot
  rw [leaves_treeHeight h31] at his
  exact ⟨is, his, hi, hm⟩

end Sound

end MerkleBlock

end BitcoinAbc
