import Mathlib
import BitcoinAbc.BlockFilter.GcsSpec

/-!
# What a block's basic filter holds (blockfilter.cpp:193–276)

`BasicFilterElements` collects the scripts a block pays to, but the empty
ones and those that start with `OP_RETURN`, and the non-empty scripts its
inputs spend (`mem_BasicFilterElements`). With `P = 19`, the filter of a
block with at most `MAX_SIZE` such scripts is built, decodes back to itself
from its encoding, and matches every one of them (`BlockFilter_make_spec`):
a light client that asks whether a block pays to or spends from one of its
scripts is never wrongly told no.
-/

namespace BitcoinAbc

namespace BlockFilter

theorem ElementSet.mem_emplace {s : ElementSet} {e x : List UInt8} :
    x ∈ (s.emplace e).elems ↔ x ∈ s.elems ∨ x = e := by
  unfold ElementSet.emplace
  split
  · rename_i he
    exact ⟨Or.inl, fun h => h.elim id fun hx => hx ▸ he⟩
  · simp

section Elements

variable {α β : Type} (skip : α → Prop) [DecidablePred skip] (script : α → List UInt8) (x : List UInt8)

/-- A loop of `BasicFilterElements` adds the script of every item it does
not skip. -/
theorem mem_foldl_emplace : ∀ (l : List α) (s : ElementSet),
    x ∈ (l.foldl (fun s a => if skip a then s else s.emplace (script a)) s).elems ↔
      x ∈ s.elems ∨ ∃ a ∈ l, ¬skip a ∧ script a = x
  | [], s => by simp
  | a :: l, s => by
    rw [List.foldl_cons, mem_foldl_emplace l, List.exists_mem_cons_iff]
    by_cases ha : skip a
    · simp [ha]
    · simp only [ha, if_false, ElementSet.mem_emplace, not_false_eq_true, true_and]
      rw [eq_comm (a := x), or_assoc]

/-- The nested loops of `BasicFilterElements`, over the items of each
transaction. -/
theorem mem_foldl_foldl_emplace (items : β → List α) : ∀ (l : List β) (s : ElementSet),
    x ∈ (l.foldl (fun s b => (items b).foldl (fun s a => if skip a then s else s.emplace (script a)) s) s).elems ↔
      x ∈ s.elems ∨ ∃ b ∈ l, ∃ a ∈ items b, ¬skip a ∧ script a = x
  | [], s => by simp
  | b :: l, s => by
    rw [List.foldl_cons, mem_foldl_foldl_emplace items l, mem_foldl_emplace, List.exists_mem_cons_iff, or_assoc]

end Elements

end BlockFilter

open BlockFilter

theorem mem_BasicFilterElements {block : CBlock} {block_undo : CBlockUndo} {script : List UInt8} :
    script ∈ (BasicFilterElements block block_undo).elems ↔
      (∃ tx ∈ block.vtx, ∃ txout ∈ tx.vout,
        ¬(txout.scriptPubKey = [] ∨ txout.scriptPubKey.getD 0 0 = Script.OP_RETURN_BYTE) ∧ txout.scriptPubKey = script) ∨
      ∃ tx_undo ∈ block_undo.vtxundo, ∃ prevout ∈ tx_undo.vprevout,
        ¬prevout.out.scriptPubKey = [] ∧ prevout.out.scriptPubKey = script := by
  have hout := mem_foldl_foldl_emplace
    (fun txout : CTxOut => txout.scriptPubKey = [] ∨ txout.scriptPubKey.getD 0 0 = Script.OP_RETURN_BYTE)
    CTxOut.scriptPubKey script CTransaction.vout block.vtx ElementSet.empty
  have hin := mem_foldl_foldl_emplace (fun prevout : Coin => prevout.out.scriptPubKey = [])
    (fun prevout => prevout.out.scriptPubKey) script CTxUndo.vprevout block_undo.vtxundo
  refine (hin _).trans ?_
  rw [hout]
  simp [ElementSet.empty]

theorem BlockFilter_make_spec (block_hash : BlockHash) (block : CBlock) (block_undo : CBlockUndo)
    (hmax : (BasicFilterElements block block_undo).elems.length ≤ MAX_SIZE) :
    ∃ filter, BlockFilter.make .BASIC block_hash block block_undo = .ok filter ∧
      BlockFilter.ofEncoded .BASIC block_hash filter.m_filter.m_encoded = .ok filter ∧
      (∀ tx ∈ block.vtx, ∀ txout ∈ tx.vout, txout.scriptPubKey ≠ [] →
        txout.scriptPubKey.getD 0 0 ≠ Script.OP_RETURN_BYTE → filter.m_filter.Match txout.scriptPubKey = .ok true) ∧
      ∀ tx_undo ∈ block_undo.vtxundo, ∀ prevout ∈ tx_undo.vprevout, prevout.out.scriptPubKey ≠ [] →
        filter.m_filter.Match prevout.out.scriptPubKey = .ok true := by
  obtain ⟨params, hparams, hP⟩ : ∃ params, BlockFilter.BuildParams .BASIC block_hash = some params ∧
      params.m_P.toNat < 64 := ⟨_, rfl, (by decide : BASIC_FILTER_P.toNat < 64)⟩
  have hN : (BasicFilterElements block block_undo).elems.length < 2 ^ 32 :=
    lt_of_le_of_lt hmax (by decide)
  obtain ⟨tail, pad, hf, htail, hpad⟩ := ofElements_eq hP hN
  refine ⟨⟨.BASIC, block_hash, ofElementsWith params (BasicFilterElements block block_undo)
    (Serialize.WriteCompactSize (BasicFilterElements block block_undo).elems.length.toUInt32.toUInt64 ++ tail)⟩,
    ?_, ?_, ?_, ?_⟩
  · rw [BlockFilter.make, hparams]
    simp only [hf]
    rfl
  · -- the encoding decodes back to the same filter
    rw [BlockFilter.ofEncoded, hparams]
    simp only [ofElementsWith, ofEncoded_ofElementsWith hP hN htail hpad, if_pos hmax]
    rfl
  · intro tx htx txout hout hne hret
    exact Match_ofElements_of_mem hP hf hmax (mem_BasicFilterElements.mpr (Or.inl ⟨tx, htx, txout, hout, by tauto, rfl⟩))
  · intro tx_undo htx prevout hprev hne
    exact Match_ofElements_of_mem hP hf hmax (mem_BasicFilterElements.mpr (Or.inr ⟨tx_undo, htx, prevout, hprev, hne, rfl⟩))

theorem BlockFilter_make_spec_one_output :
    let block : CBlock := ⟨⟨0⟩, [⟨[], [⟨⟨5000⟩, [0x51]⟩, ⟨⟨0⟩, [0x6a]⟩], ⟨1⟩⟩]⟩
    let block_undo : CBlockUndo := ⟨[⟨[⟨⟨⟨4000⟩, [0x52]⟩, 2⟩]⟩]⟩
    ∃ filter, BlockFilter.make .BASIC ⟨7⟩ block block_undo = .ok filter ∧
      BlockFilter.ofEncoded .BASIC ⟨7⟩ filter.m_filter.m_encoded = .ok filter ∧
      (∀ tx ∈ block.vtx, ∀ txout ∈ tx.vout, txout.scriptPubKey ≠ [] →
        txout.scriptPubKey.getD 0 0 ≠ Script.OP_RETURN_BYTE → filter.m_filter.Match txout.scriptPubKey = .ok true) ∧
      ∀ tx_undo ∈ block_undo.vtxundo, ∀ prevout ∈ tx_undo.vprevout, prevout.out.scriptPubKey ≠ [] →
        filter.m_filter.Match prevout.out.scriptPubKey = .ok true := by
  intro block block_undo
  exact (BlockFilter_make_spec ⟨7⟩ block block_undo (by decide) :)

end BitcoinAbc
