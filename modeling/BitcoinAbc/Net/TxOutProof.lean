import Mathlib
import BitcoinAbc.Net.MerkleBlockSpec
import BitcoinAbc.Consensus.Merkle

/-!
# Proofs of inclusion (rpc/rawtransaction.cpp)

`gettxoutproof` writes the `CMerkleBlock` of a block for a set of transaction
ids; `verifytxoutproof` reads one back, checks its root against its header and,
when the header's block is in the active chain with as many transactions as the
proof says, returns the ids the proof commits to
(rawtransaction.cpp:424–480).

- `verifytxoutproof_make`: the proof made for a block whose header commits to
  its transactions verifies, and returns the ids asked for, in the order of the
  block;
- `verifytxoutproof_sound`: whatever proof is presented, the ids returned for a
  block of the chain are ids of its transactions, in the order of the block,
  when no pair the walk over the proof hashes collides with a pair the block's
  Merkle tree hashes.
-/

namespace BitcoinAbc

namespace MerkleBlock

variable {β γ : Type} [Inhabited γ]

/-- The ids at the matched positions are those of the matched items, in order.
The induction is on the list. -/
theorem map_getD_matchedPositions (p : β → Bool) (f : β → γ) :
    ∀ l : List β, (matchedPositions (l.map p) l.length).map ((l.map f).getD · default) =
      (l.filter p).map f
  | [] => rfl
  | x :: l => by
    have ih := map_getD_matchedPositions p f l
    rw [matchedPositions] at ih ⊢
    rw [List.length_cons, List.range_succ_eq_map, List.filter_cons, List.filter_map]
    -- past the head, the positions and the lists shift by one
    have hp : ((fun i => ((x :: l).map p).getD i false) ∘ Nat.succ) = fun i => (l.map p).getD i false :=
      rfl
    have hf : ((fun i => (f x :: l.map f).getD i default) ∘ Nat.succ) =
        fun i => (l.map f).getD i default := rfl
    have h0 : ((x :: l).map p).getD 0 false = p x := rfl
    rw [hp, h0, List.filter_cons]
    cases p x
    · simp only [Bool.false_eq_true, if_false, List.map_cons, List.map_map, hf, ih]
    · simp only [if_true, List.map_cons, List.map_map, hf, ih, List.getD_cons_zero]

/-- Positions in increasing order pick a sublist. -/
theorem map_getD_sublist {l : List γ} {is : List Nat} (his : is.Sublist (List.range l.length)) :
    (is.map (l.getD · default)).Sublist l := by
  have hl : (List.range l.length).map (l.getD · default) = l := by
    apply List.ext_getElem
    · simp
    · intro i h1 h2
      rw [List.getElem_map, List.getElem_range, List.getD_eq_getElem _ _ h2]
  have := his.map (l.getD · default)
  rwa [hl] at this

section Proofs

variable (Hash : BitVec 256 → BitVec 256 → BitVec 256) (block : CBlockWithHeader)

/-- The root `ComputeMerkleRoot` computes is the reference root. -/
theorem ComputeMerkleRoot_fst (vTxid : List (BitVec 256)) :
    (ComputeMerkleRoot Hash vTxid).1 = merkleRootRef Hash vTxid :=
  merkleLoop_headD vTxid false

/-- The proof `gettxoutproof` writes for a block with at most `2^31`
transactions, whose header commits to them and whose Merkle tree has no two
equal sibling nodes, verifies: `verifytxoutproof` returns the ids asked for, in
the order of the block. -/
theorem verifytxoutproof_make (txids : Finset TxId) (hne : block.vtx ≠ [])
    (h31 : block.vtx.length ≤ 2 ^ 31) (hsib : SiblingsDiffer Hash (block.vtx.map fun tx => tx.GetId.hash))
    (hroot : block.header.hashMerkleRoot =
      (ComputeMerkleRoot Hash (block.vtx.map fun tx => tx.GetId.hash)).1) :
    ∃ mb, CMerkleBlock.make Hash block txids = some mb ∧
      verifytxoutproof Hash mb.reread (some block.vtx.length) =
        .ok ((block.vtx.filter fun tx => decide (tx.GetId ∈ txids)).map fun tx => tx.GetId.hash) := by
  have hne' : (block.vtx.map fun tx => tx.GetId.hash) ≠ [] := by simpa using hne
  have h31' : (block.vtx.map fun tx => tx.GetId.hash).length ≤ 2 ^ 31 := by simpa using h31
  obtain ⟨t, hmake, hN, -, hwire⟩ := ExtractMatches_make Hash hne' h31' hsib
    (block.vtx.map fun tx => decide (tx.GetId ∈ txids)) []
  refine ⟨⟨block.header, t⟩, ?_, ?_⟩
  · rw [CMerkleBlock.make, hmake]
    rfl
  · have hroot' : merkleRootRef Hash (block.vtx.map fun tx => tx.GetId.hash) = block.header.hashMerkleRoot := by
      rw [hroot, ComputeMerkleRoot_fst]
    obtain ⟨n, hn⟩ : ∃ n, block.vtx.length = n + 1 :=
      Nat.exists_eq_succ_of_ne_zero (List.length_pos_of_ne_nil hne).ne'
    have hread : t.reread.nTransactions.toNat = n + 1 := by
      rw [← hn, ← List.length_map (fun tx : CTransaction => tx.GetId.hash), ← hN]
      rfl
    rw [verifytxoutproof, CMerkleBlock.reread]
    dsimp only
    rw [hwire]
    dsimp only
    rw [hroot', if_neg (not_not.mpr rfl), hn]
    -- the block is found, with transactions
    split
    · rename_i hm
      exact absurd hm (Option.some_ne_none _)
    · rename_i hm
      exact absurd (Option.some.inj hm) (Nat.succ_ne_zero n)
    · rename_i m _ hm
      cases Option.some.inj hm
      rw [if_pos hread.symm, List.length_map, map_getD_matchedPositions]
      rfl

theorem verifytxoutproof_make_three :
    let Hash : BitVec 256 → BitVec 256 → BitVec 256 := fun a b => a * 1000 + b
    let txs : List CTransaction := [⟨[], [], ⟨1⟩⟩, ⟨[], [], ⟨2⟩⟩, ⟨[], [], ⟨3⟩⟩]
    let block : CBlockWithHeader :=
      ⟨⟨1, ⟨0⟩, (ComputeMerkleRoot Hash (txs.map fun tx => tx.GetId.hash)).1, 0, 1, 0⟩, txs⟩
    ∃ mb, CMerkleBlock.make Hash block {⟨2⟩} = some mb ∧
      verifytxoutproof Hash mb.reread (some block.vtx.length) =
        .ok ((block.vtx.filter fun tx => decide (tx.GetId ∈ ({⟨2⟩} : Finset TxId))).map
          fun tx => tx.GetId.hash) := by
  intro Hash txs block
  -- elaborated on its own first: against the statement, unification would run the model
  exact (verifytxoutproof_make Hash block {⟨2⟩} (by decide) (by decide) (by decide) rfl :)

/-- Whatever proof is presented for a block of the active chain with at most
`2^31` transactions whose header commits to them, at a root other than
`uint256()`, the ids `verifytxoutproof` returns are ids of the block's
transactions, in the order of the block, when no pair the walk over the proof
hashes collides with a pair the block's Merkle tree hashes. -/
theorem verifytxoutproof_sound (merkleBlock : CMerkleBlock) (hheader : merkleBlock.header = block.header)
    (h31 : block.vtx.length ≤ 2 ^ 31)
    (hroot : block.header.hashMerkleRoot =
      (ComputeMerkleRoot Hash (block.vtx.map fun tx => tx.GetId.hash)).1)
    (hnull : block.header.hashMerkleRoot ≠ 0)
    (hinj : NoCollision Hash
      (walkPairs Hash merkleBlock.txn (treeHeight block.vtx.length) 0 ⟨0, 0, [], [], merkleBlock.txn.fBad⟩)
      (nodePairs Hash (block.vtx.map fun tx => tx.GetId.hash) (treeHeight block.vtx.length) 0))
    {res : List (BitVec 256)}
    (hres : verifytxoutproof Hash merkleBlock (some block.vtx.length) = .ok res) :
    res.Sublist (block.vtx.map fun tx => tx.GetId.hash) := by
  rw [ComputeMerkleRoot_fst] at hroot
  rw [verifytxoutproof, hheader] at hres
  dsimp only at hres
  split at hres
  · -- a proof whose root is not the header's gives nothing
    cases hres
    exact List.nil_sublist _
  rename_i hcheck
  split at hres
  · cases hres
  · cases hres
  rename_i m _ hm
  cases Option.some.inj hm
  split at hres
  · -- a proof over as many transactions as the block: `ExtractMatches` is sound
    rename_i hN
    cases hres
    have hN' : merkleBlock.txn.nTransactions.toNat = (block.vtx.map fun tx => tx.GetId.hash).length := by
      rw [List.length_map, hN]
    obtain ⟨is, his, -, hms⟩ := ExtractMatches_sound Hash merkleBlock.txn [] hN'
      (by rw [List.length_map]; exact h31) (by rw [List.length_map]; exact hinj) (hroot ▸ hnull) (hroot ▸ not_not.mp hcheck)
    rw [hms]
    exact map_getD_sublist his
  · cases hres
    exact List.nil_sublist _

theorem verifytxoutproof_sound_three :
    let Hash : BitVec 256 → BitVec 256 → BitVec 256 := fun a b => a * 1000 + b
    let txs : List CTransaction := [⟨[], [], ⟨1⟩⟩, ⟨[], [], ⟨2⟩⟩, ⟨[], [], ⟨3⟩⟩]
    let block : CBlockWithHeader := ⟨⟨1, ⟨0⟩, 1005003, 0, 1, 0⟩, txs⟩
    let merkleBlock : CMerkleBlock :=
      ⟨block.header, ⟨3, [true, true, false, true, false], [1, 2, 3003], false⟩⟩
    block.header.hashMerkleRoot = (ComputeMerkleRoot Hash (block.vtx.map fun tx => tx.GetId.hash)).1 ∧
      NoCollision Hash
        (walkPairs Hash merkleBlock.txn (treeHeight block.vtx.length) 0 ⟨0, 0, [], [], merkleBlock.txn.fBad⟩)
        (nodePairs Hash (block.vtx.map fun tx => tx.GetId.hash) (treeHeight block.vtx.length) 0) ∧
      verifytxoutproof Hash merkleBlock (some block.vtx.length) = .ok [2] ∧
      [2].Sublist (block.vtx.map fun tx => tx.GetId.hash) := by
  intro Hash txs block merkleBlock
  have hids : (block.vtx.map fun tx => tx.GetId.hash) = [1, 2, 3] := rfl
  have hroot : block.header.hashMerkleRoot =
      (ComputeMerkleRoot Hash (block.vtx.map fun tx => tx.GetId.hash)).1 := by
    rw [ComputeMerkleRoot_fst, hids]
    simp [block, Hash, merkleRootRef, pairLevel]
  -- the walk hashes two of the three pairs the tree hashes, and no other
  have hwalk : walkPairs Hash merkleBlock.txn (treeHeight block.vtx.length) 0 ⟨0, 0, [], [], false⟩ =
      [(1, 2), (1002, 3003)] := by
    decide +kernel
  have hnode : nodePairs Hash (block.vtx.map fun tx => tx.GetId.hash) (treeHeight block.vtx.length) 0 =
      [(1, 2), (3, 3), (1002, 3003)] := by
    decide +kernel
  have hinj : NoCollision Hash
      (walkPairs Hash merkleBlock.txn (treeHeight block.vtx.length) 0 ⟨0, 0, [], [], merkleBlock.txn.fBad⟩)
      (nodePairs Hash (block.vtx.map fun tx => tx.GetId.hash) (treeHeight block.vtx.length) 0) := by
    rw [show merkleBlock.txn.fBad = false from rfl, hwalk, hnode]
    intro p hp q hq hpq
    simp only [List.mem_cons, List.not_mem_nil, or_false] at hp hq
    -- the pairs that differ have different hashes
    rcases hp with rfl | rfl <;> rcases hq with rfl | rfl | rfl <;> first | rfl | exact absurd hpq (by decide)
  -- the proof holds the encoding of the tree with the second leaf matched
  have hbits : merkleBlock.txn.vBits =
      (encodeNode Hash [1, 2, 3] [false, true, false] (treeHeight [1, 2, 3].length) 0).1 ++ [] := by
    decide
  have hext := ExtractMatches_encodeNode (show [1, 2, 3] ≠ ([] : List (BitVec 256)) by decide)
    (by decide) (show SiblingsDiffer Hash [1, 2, 3] by decide) (t := merkleBlock.txn) rfl hbits rfl (by decide) rfl []
  have hres : verifytxoutproof Hash merkleBlock (some block.vtx.length) = .ok [2] := by
    rw [verifytxoutproof, hext, ← hids, ← ComputeMerkleRoot_fst, ← hroot]
    rfl
  exact ⟨hroot, hinj, hres,
    verifytxoutproof_sound Hash block merkleBlock rfl (by decide) hroot (by decide) hinj hres⟩

end Proofs

end MerkleBlock

end BitcoinAbc
