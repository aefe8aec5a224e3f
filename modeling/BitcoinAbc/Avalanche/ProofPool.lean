import Mathlib
import BitcoinAbc.Avalanche.Proof
import BitcoinAbc.Lib.SearchTree

/-!
# The pool of conflicting proofs (avalanche/proofpool.cpp, proofcomparator.h)

A `ProofPool` maps each staked outpoint to the proof that stakes it. It is a
`boost::multi_index_container` of entries `(utxoIndex, proof)`, unique by
outpoint; it is also read by proof id (`forEachProof`, `removeProof`).
`addProofIfNoConflict` attaches every stake of a proof optimistically and, on a
collision, takes the proof's own entries back out; the proofs it collided with
are collected in a `std::set` ordered by `ConflictingProofComparator`.
`addProofIfPreferred` compares the proof with the first element of that set
only, and on a win removes every conflicting proof and adds the new one.

The model keeps the container as the list of its entries. The order of the
by-proof-id index is unspecified: `countProofs` takes the order it walks as an
argument, and the results hold for every order that keeps the entries of one
id together (`ByProofIdOrder`), which is what a hashed non-unique index does.

- `ConflictingProofComparator_irrefl`, `_asymm`, `_total`: the comparator is
  irreflexive, asymmetric, and orders any two proofs of different ids; it is
  transitive on proofs whose masters are pairwise different
  (`_trans_of_ne`) or all one key (`_trans_of_eq`);
- `addProofIfPreferred_replaces_preferred`: mixing the two, three proofs form
  a cycle, and `addProofIfPreferred` then replaces a proof the comparator
  prefers to the candidate;
- `addProofIfPreferred_eq_of_strictTotalOn`: when the comparator is
  transitive on the conflicting proofs and the candidate, the candidate wins
  exactly when it is preferred to every one of them;
- `proofPool_invariant`: over every run from a new pool, the container maps
  an outpoint to one entry and holds every stake of each proof it holds,
  `addProofIfNoConflict` reports exactly the conflicting proofs, and
  `countProofs` is the number of proofs, provided no proof has the zero id
  (a proof id is a SHA256d hash; `forEachProof` starts from `ProofId()`, so
  the entries of a zero id walked first would not be counted).
-/

namespace BitcoinAbc

namespace Avalanche

open SearchTree

/-- `ProofRef`, a shared pointer to a proof, with the id and the score the
proof computed when it was built. -/
structure ProofRef where
  proof : Proof
  proofid : ProofId
  score : UInt32

/-- The outpoints of the stakes of a proof, in order. -/
def ProofRef.utxos (p : ProofRef) : List COutPoint := p.proof.stakes.map (·.stake.utxo)

/-! ## The comparator -/

/-- `ConflictingProofComparator`: the proof with the higher sequence number
when both have one master, then the higher score, then fewer stakes, then the
lower id. -/
def ConflictingProofComparator (lhs rhs : ProofRef) : Bool :=
  if lhs.proof.master = rhs.proof.master ∧ lhs.proof.sequence ≠ rhs.proof.sequence then
    lhs.proof.sequence > rhs.proof.sequence
  else if lhs.score ≠ rhs.score then lhs.score > rhs.score
  else if lhs.proof.stakes.length ≠ rhs.proof.stakes.length then
    lhs.proof.stakes.length < rhs.proof.stakes.length
  else lhs.proofid < rhs.proofid

namespace ProofId

theorem lt_irrefl (a : ProofId) : ¬ a < a := List.lt_irrefl a.data

theorem lt_asymm {a b : ProofId} (h : a < b) : ¬ b < a := List.lt_asymm h

theorem lt_trans {a b c : ProofId} (h₁ : a < b) (h₂ : b < c) : a < c := List.lt_trans h₁ h₂

theorem data_inj {a b : ProofId} (h : a.data = b.data) : a = b := by
  cases a
  cases b
  cases h
  rfl

theorem lt_of_not_lt {a b : ProofId} (hne : a ≠ b) (h : ¬ a < b) : b < a := by
  rcases List.le_iff_lt_or_eq.mp (List.not_lt.mp h) with h₁ | h₁
  · exact h₁
  · exact absurd (data_inj h₁).symm hne

end ProofId

section Comparator

variable {a b c : ProofRef}

/-- The order the comparator falls back on when the sequence numbers do not
decide: the higher score, then fewer stakes, then the lower id. -/
def CostLt (a b : ProofRef) : Prop :=
  b.score.toNat < a.score.toNat ∨ a.score.toNat = b.score.toNat ∧
    (a.proof.stakes.length < b.proof.stakes.length ∨
      a.proof.stakes.length = b.proof.stakes.length ∧ a.proofid < b.proofid)

/-- The comparator, read as two orders: by sequence number between proofs of
one master, by cost otherwise. -/
theorem ConflictingProofComparator_iff :
    ConflictingProofComparator a b = true ↔
      if a.proof.master = b.proof.master ∧ a.proof.sequence ≠ b.proof.sequence then
        b.proof.sequence.toNat < a.proof.sequence.toNat
      else CostLt a b := by
  unfold ConflictingProofComparator CostLt
  split
  · simp [UInt64.lt_iff_toNat_lt]
  · by_cases hs : a.score = b.score
    · by_cases hn : a.proof.stakes.length = b.proof.stakes.length
      · simp [hs, hn]
      · simp [hs, hn]
    · have hs' : a.score.toNat ≠ b.score.toNat := fun h => hs (UInt32.toNat_inj.mp h)
      simp [hs, hs', UInt32.lt_iff_toNat_lt]

theorem CostLt.irrefl (a : ProofRef) : ¬ CostLt a a := by
  rintro (h | ⟨-, h | ⟨-, h⟩⟩)
  · exact Nat.lt_irrefl _ h
  · exact Nat.lt_irrefl _ h
  · exact ProofId.lt_irrefl _ h

theorem CostLt.trans (h₁ : CostLt a b) (h₂ : CostLt b c) : CostLt a c := by
  unfold CostLt at *
  rcases h₁ with h₁ | ⟨hs₁, h₁⟩ <;> rcases h₂ with h₂ | ⟨hs₂, h₂⟩
  · exact Or.inl (Nat.lt_trans h₂ h₁)
  · exact Or.inl (hs₂ ▸ h₁)
  · exact Or.inl (hs₁ ▸ h₂)
  · refine Or.inr ⟨hs₁.trans hs₂, ?_⟩
    rcases h₁ with h₁ | ⟨hn₁, hid₁⟩ <;> rcases h₂ with h₂ | ⟨hn₂, hid₂⟩
    · exact Or.inl (Nat.lt_trans h₁ h₂)
    · exact Or.inl (hn₂ ▸ h₁)
    · exact Or.inl (hn₁ ▸ h₂)
    · exact Or.inr ⟨hn₁.trans hn₂, ProofId.lt_trans hid₁ hid₂⟩

theorem CostLt.asymm (h : CostLt a b) : ¬ CostLt b a := fun h' => CostLt.irrefl a (h.trans h')

theorem CostLt.total (hid : a.proofid ≠ b.proofid) : CostLt a b ∨ CostLt b a := by
  unfold CostLt
  rcases Nat.lt_trichotomy a.score.toNat b.score.toNat with hs | hs | hs
  · exact Or.inr (Or.inl hs)
  · rcases Nat.lt_trichotomy a.proof.stakes.length b.proof.stakes.length with hn | hn | hn
    · exact Or.inl (Or.inr ⟨hs, Or.inl hn⟩)
    · by_cases h : a.proofid < b.proofid
      · exact Or.inl (Or.inr ⟨hs, Or.inr ⟨hn, h⟩⟩)
      · exact Or.inr (Or.inr ⟨hs.symm, Or.inr ⟨hn.symm, ProofId.lt_of_not_lt hid h⟩⟩)
    · exact Or.inr (Or.inr ⟨hs.symm, Or.inl hn⟩)
  · exact Or.inl (Or.inl hs)

/-- The first test of the comparator is symmetric in its two proofs. -/
theorem sameMaster_symm :
    (a.proof.master = b.proof.master ∧ a.proof.sequence ≠ b.proof.sequence) ↔
      (b.proof.master = a.proof.master ∧ b.proof.sequence ≠ a.proof.sequence) :=
  ⟨fun h => ⟨h.1.symm, Ne.symm h.2⟩, fun h => ⟨h.1.symm, Ne.symm h.2⟩⟩

theorem ConflictingProofComparator_irrefl (a : ProofRef) : ConflictingProofComparator a a = false := by
  rw [Bool.eq_false_iff, ne_eq, ConflictingProofComparator_iff, if_neg (by simp)]
  exact CostLt.irrefl a

theorem ConflictingProofComparator_asymm (h : ConflictingProofComparator a b = true) :
    ConflictingProofComparator b a = false := by
  rw [ConflictingProofComparator_iff] at h
  rw [Bool.eq_false_iff, ne_eq, ConflictingProofComparator_iff]
  by_cases hab : a.proof.master = b.proof.master ∧ a.proof.sequence ≠ b.proof.sequence
  · rw [if_pos hab] at h
    rw [if_pos (sameMaster_symm.mp hab)]
    omega
  · rw [if_neg hab] at h
    rw [if_neg (mt sameMaster_symm.mpr hab)]
    exact h.asymm

/-- Two proofs of different ids are ordered one way or the other. -/
theorem ConflictingProofComparator_total (hid : a.proofid ≠ b.proofid) :
    ConflictingProofComparator a b = true ∨ ConflictingProofComparator b a = true := by
  simp only [ConflictingProofComparator_iff]
  by_cases hab : a.proof.master = b.proof.master ∧ a.proof.sequence ≠ b.proof.sequence
  · rw [if_pos hab, if_pos (sameMaster_symm.mp hab)]
    have hne : a.proof.sequence.toNat ≠ b.proof.sequence.toNat :=
      fun h => hab.2 (UInt64.toNat_inj.mp h)
    omega
  · rw [if_neg hab, if_neg (mt sameMaster_symm.mpr hab)]
    exact CostLt.total hid

/-- Among proofs of pairwise different masters the comparator is the order by
cost, which is transitive. -/
theorem ConflictingProofComparator_trans_of_ne (hab : a.proof.master ≠ b.proof.master)
    (hbc : b.proof.master ≠ c.proof.master) (hac : a.proof.master ≠ c.proof.master)
    (h₁ : ConflictingProofComparator a b = true) (h₂ : ConflictingProofComparator b c = true) :
    ConflictingProofComparator a c = true := by
  rw [ConflictingProofComparator_iff, if_neg fun h => hab h.1] at h₁
  rw [ConflictingProofComparator_iff, if_neg fun h => hbc h.1] at h₂
  rw [ConflictingProofComparator_iff, if_neg fun h => hac h.1]
  exact h₁.trans h₂

/-- Between proofs of one master the comparator never prefers the lower
sequence number. -/
theorem sequence_le_of_eq_master (hab : a.proof.master = b.proof.master)
    (h : ConflictingProofComparator a b = true) :
    b.proof.sequence.toNat ≤ a.proof.sequence.toNat := by
  rw [ConflictingProofComparator_iff] at h
  split at h
  · exact Nat.le_of_lt h
  · rename_i hms
    have heq : a.proof.sequence = b.proof.sequence := Classical.not_not.mp fun hne => hms ⟨hab, hne⟩
    rw [heq]

/-- Among proofs of one master the comparator orders by sequence number, then
by cost, which is transitive. -/
theorem ConflictingProofComparator_trans_of_eq (hab : a.proof.master = b.proof.master)
    (hbc : b.proof.master = c.proof.master)
    (h₁ : ConflictingProofComparator a b = true) (h₂ : ConflictingProofComparator b c = true) :
    ConflictingProofComparator a c = true := by
  have hac := hab.trans hbc
  have hs₁ := sequence_le_of_eq_master hab h₁
  have hs₂ := sequence_le_of_eq_master hbc h₂
  rw [ConflictingProofComparator_iff]
  by_cases hne : a.proof.sequence = c.proof.sequence
  · -- equal sequence numbers at both ends force them all equal: the costs decide
    have hab' : a.proof.sequence = b.proof.sequence := by
      apply UInt64.toNat_inj.mp
      rw [hne] at hs₁ ⊢
      omega
    have hbc' : b.proof.sequence = c.proof.sequence := hab'.symm.trans hne
    rw [ConflictingProofComparator_iff, if_neg fun h => h.2 hab'] at h₁
    rw [ConflictingProofComparator_iff, if_neg fun h => h.2 hbc'] at h₂
    rw [if_neg fun h => h.2 hne]
    exact h₁.trans h₂
  · rw [if_pos ⟨hac, hne⟩]
    have : a.proof.sequence.toNat ≠ c.proof.sequence.toNat := fun h => hne (UInt64.toNat_inj.mp h)
    omega

end Comparator

/-! ## The pool -/

/-- `ProofPoolEntry`: the stake `utxoIndex` of `proof`. -/
structure ProofPoolEntry where
  utxoIndex : Nat
  proof : ProofRef
  utxoIndex_lt : utxoIndex < proof.proof.stakes.length

/-- `ProofPoolEntry::getUTXO`, the outpoint of the entry's stake. -/
def ProofPoolEntry.getUTXO (e : ProofPoolEntry) : COutPoint :=
  (e.proof.proof.stakes.get ⟨e.utxoIndex, e.utxoIndex_lt⟩).stake.utxo

/-- `ProofPool::ConflictingProofSet`, a `std::set` ordered by
`ConflictingProofComparator`. -/
abbrev ConflictingProofSet := SearchTree.Tree ProofRef

/-- `ProofPool::AddProofStatus`. -/
inductive AddProofStatus where
  | REJECTED
  | SUCCEED
  | DUPLICATED
  deriving DecidableEq, Repr

/-- `ProofPool`: the entries of the container, and the cached count of
proofs with the flag that says whether it is up to date. -/
structure ProofPool where
  pool : List ProofPoolEntry
  cacheClean : Bool
  cacheProofCount : Nat

namespace ProofPool

/-- A new pool: no entry, and a clean cache of `0`. -/
def empty : ProofPool := ⟨[], true, 0⟩

/-- `pool.emplace(e)`: the container is unique by outpoint, so the entry goes
in only when no entry has its outpoint; otherwise the entry found is
returned. -/
def emplace (pool : List ProofPoolEntry) (e : ProofPoolEntry) :
    List ProofPoolEntry × Option ProofPoolEntry :=
  match pool.find? (·.getUTXO == e.getUTXO) with
  | some old => (pool, some old)
  | none => (pool ++ [e], none)

/-- One turn of the loop of `addProofIfNoConflict` that attaches the stakes:
on a collision the proof found goes into `conflictingProofs`. -/
def attachUtxo (proof : ProofRef) (acc : List ProofPoolEntry × ConflictingProofSet)
    (i : Fin proof.proof.stakes.length) : List ProofPoolEntry × ConflictingProofSet :=
  match emplace acc.1 ⟨i, proof, i.isLt⟩ with
  | (pool, some old) => (pool, acc.2.insert ConflictingProofComparator old.proof)
  | (pool, none) => (pool, acc.2)

/-- The clean-up loop after a conflict: the entry of each stake is looked up,
`assert(it != pool.end())`, and erased when it belongs to the proof. -/
def eraseOwnUtxos (proofid : ProofId) :
    List ProofPoolEntry → List SignedStake → Option (List ProofPoolEntry)
  | pool, [] => some pool
  | pool, s :: ss =>
    match pool.find? (·.getUTXO == s.stake.utxo) with
    | none => none
    | some it =>
      eraseOwnUtxos proofid
        (if it.proof.proofid = proofid then pool.eraseP (·.getUTXO == s.stake.utxo) else pool) ss

/-- `ProofPool::addProofIfNoConflict`, with the set of conflicting proofs it
fills. `none` is a failed `assert`. -/
def addProofIfNoConflict (pp : ProofPool) (proof : ProofRef) :
    Option (AddProofStatus × ConflictingProofSet × ProofPool) :=
  if pp.pool.any (·.proof.proofid == proof.proofid) then some (.DUPLICATED, .leaf, pp)
  else
    let (pool, conflictingProofs) :=
      (List.finRange proof.proof.stakes.length).foldl (attachUtxo proof) (pp.pool, .leaf)
    if conflictingProofs.size > 0 then
      (eraseOwnUtxos proof.proofid pool proof.proof.stakes).map fun pool =>
        (.REJECTED, conflictingProofs, { pp with pool })
    else some (.SUCCEED, conflictingProofs, { pp with pool, cacheClean := false })

/-- `ProofPool::removeProof`: every entry of the id goes; the answer is
whether there was one. -/
def removeProof (pp : ProofPool) (proofid : ProofId) : Bool × ProofPool :=
  (pp.pool.any (·.proof.proofid == proofid),
    { pp with pool := pp.pool.filter (·.proof.proofid != proofid), cacheClean := false })

/-- `ProofPool::addProofIfPreferred`. The candidate is compared with the first
conflicting proof only; `none` is a failed `assert`, or `begin()` of an empty
set. -/
def addProofIfPreferred (pp : ProofPool) (proof : ProofRef) :
    Option (AddProofStatus × ConflictingProofSet × ProofPool) := do
  let (status, conflictingProofs, pp) ← pp.addProofIfNoConflict proof
  if status != .REJECTED then return (status, conflictingProofs, pp)
  let best ← conflictingProofs.begin?
  if ConflictingProofComparator best proof then return (status, conflictingProofs, pp)
  let pp := conflictingProofs.toList.foldl (fun pp c => (pp.removeProof c.proofid).2) pp
  let (status, _, pp) ← pp.addProofIfNoConflict proof
  if status != .SUCCEED then none
  return (.SUCCEED, conflictingProofs, { pp with cacheClean := false })

/-- `ProofPool::forEachProof`: walking the entries in the order of the
by-proof-id index, the proof of each entry whose id differs from the last one
seen, which starts as `ProofId()`. -/
def forEachProof (lastProofId : ProofId) : List ProofPoolEntry → List ProofRef
  | [] => []
  | e :: es =>
    if lastProofId ≠ e.proof.proofid then e.proof :: forEachProof e.proof.proofid es
    else forEachProof lastProofId es

/-- `ProofPool::countProofs`, given the order the by-proof-id index lists the
entries in. -/
def countProofs (pp : ProofPool) (byProofId : List ProofPoolEntry) : Nat × ProofPool :=
  if pp.cacheClean then (pp.cacheProofCount, pp)
  else
    let count := (forEachProof ProofId.ZERO byProofId).length
    (count, { pp with cacheProofCount := count, cacheClean := true })

end ProofPool

/-! ## Lookups by outpoint -/

namespace ProofPool

section Lookup

variable {l : List ProofPoolEntry} {u : COutPoint}

/-- A lookup of an outpoint some entry has finds such an entry. -/
theorem find?_getUTXO_of_mem (h : u ∈ l.map (·.getUTXO)) :
    ∃ e, l.find? (·.getUTXO == u) = some e ∧ e ∈ l ∧ e.getUTXO = u := by
  cases hf : l.find? (·.getUTXO == u) with
  | none =>
    obtain ⟨e, he, rfl⟩ := List.mem_map.mp h
    have := List.find?_eq_none.mp hf e he
    simp at this
  | some e =>
    exact ⟨e, rfl, List.mem_of_find?_eq_some hf, by simpa using List.find?_some hf⟩

theorem find?_getUTXO_eq_none (h : u ∉ l.map (·.getUTXO)) :
    l.find? (·.getUTXO == u) = none := by
  rw [List.find?_eq_none]
  intro e he heq
  exact h (List.mem_map.mpr ⟨e, he, by simpa using heq⟩)

/-- Outpoints are a key of the container: two entries with one outpoint are
one entry. -/
theorem eq_of_getUTXO_eq (hnd : (l.map (·.getUTXO)).Nodup) {e e' : ProofPoolEntry} (he : e ∈ l)
    (he' : e' ∈ l) (h : e.getUTXO = e'.getUTXO) : e = e' :=
  List.inj_on_of_nodup_map hnd he he' h

/-- With outpoints a key, erasing the first entry of an outpoint erases them
all. -/
theorem eraseP_getUTXO_eq_filter :
    ∀ {l : List ProofPoolEntry}, (l.map (·.getUTXO)).Nodup →
      l.eraseP (·.getUTXO == u) = l.filter (·.getUTXO != u)
  | [], _ => rfl
  | e :: es, hnd => by
    rw [List.map_cons, List.nodup_cons] at hnd
    by_cases he : e.getUTXO = u
    · -- the head is the one entry of `u`: no other entry has it
      have hrest : ∀ x ∈ es, (x.getUTXO != u) = true := by
        intro x hx
        have : x.getUTXO ≠ u := fun hx' => hnd.1 (he ▸ hx' ▸ List.mem_map_of_mem hx)
        simpa using this
      rw [List.eraseP_cons_of_pos (by simpa using he), List.filter_cons_of_neg (by simpa using he),
        List.filter_eq_self.mpr hrest]
    · rw [List.eraseP_cons_of_neg (by simpa using he), List.filter_cons_of_pos (by simpa using he),
        eraseP_getUTXO_eq_filter hnd.2]

end Lookup

/-! ## The attach loop -/

section Attach

variable {P : List ProofPoolEntry} {proof : ProofRef}

/-- The proofs of the pool that stake an outpoint of `proof`. -/
def conflictsOf (P : List ProofPoolEntry) (proof : ProofRef) : List ProofRef :=
  (P.filter (·.getUTXO ∈ proof.utxos)).map (·.proof)

theorem mem_conflictsOf {q : ProofRef} :
    q ∈ conflictsOf P proof ↔ ∃ e ∈ P, e.proof = q ∧ e.getUTXO ∈ proof.utxos := by
  simp only [conflictsOf, List.mem_map, List.mem_filter, decide_eq_true_eq]
  constructor
  · rintro ⟨e, ⟨he, hu⟩, rfl⟩
    exact ⟨e, he, rfl, hu⟩
  · rintro ⟨e, he, rfl, hu⟩
    exact ⟨e, ⟨he, hu⟩, rfl⟩

/-- The entries of `proof` a run of the attach loop added: one for each
outpoint it attached, none of them an outpoint of the old pool. -/
structure NewEntries (P : List ProofPoolEntry) (proof : ProofRef) (done : List COutPoint)
    (N : List ProofPoolEntry) : Prop where
  proof_eq : ∀ e ∈ N, e.proof = proof
  nodup : (N.map (·.getUTXO)).Nodup
  fresh : ∀ e ∈ N, e.getUTXO ∉ P.map (·.getUTXO)
  mem_done : ∀ e ∈ N, e.getUTXO ∈ done

/-- What the attach loop keeps after the stakes whose outpoints are `done`:
the pool is the old one and new entries of the proof, every outpoint done is
in it, and the set holds the old proofs met on the way, sorted when the
comparator orders the conflicting proofs. -/
structure AttachInv (P : List ProofPoolEntry) (proof : ProofRef) (done : List COutPoint)
    (acc : List ProofPoolEntry × ConflictingProofSet) : Prop where
  pool_eq : ∃ N, acc.1 = P ++ N ∧ NewEntries P proof done N
  covers : ∀ u ∈ done, u ∈ acc.1.map (·.getUTXO)
  mem_conflicts : ∀ q, q ∈ acc.2.toList ↔ ∃ e ∈ P, e.proof = q ∧ e.getUTXO ∈ done
  sorted : SearchTree.Tree.StrictTotalOn ConflictingProofComparator (conflictsOf P proof) →
    acc.2.toList.Pairwise (ConflictingProofComparator · ·)

theorem AttachInv.init : AttachInv P proof [] (P, .leaf) where
  pool_eq := ⟨[], by simp, ⟨by simp, by simp, by simp, by simp⟩⟩
  covers := by simp
  mem_conflicts := by simp
  sorted _ := List.Pairwise.nil

/-- The outpoint of stake `i`. -/
theorem getUTXO_mk (i : Fin proof.proof.stakes.length) :
    (⟨i, proof, i.isLt⟩ : ProofPoolEntry).getUTXO = (proof.proof.stakes.get i).stake.utxo := rfl

theorem map_finRange_getUTXO :
    (List.finRange proof.proof.stakes.length).map (fun (i : Fin proof.proof.stakes.length) => (⟨i, proof, i.isLt⟩ : ProofPoolEntry).getUTXO) =
      proof.utxos := by
  have h : (List.finRange proof.proof.stakes.length).map proof.proof.stakes.get = proof.proof.stakes := by
    rw [← List.ofFn_eq_map, List.ofFn_get]
  simp only [getUTXO_mk]
  rw [ProofRef.utxos]
  conv_rhs => rw [← h]
  rw [List.map_map]
  rfl

/-- The proofs of the old pool are ordered against each other by the
comparator, their ids being different. -/
theorem total_of_sameId (hsame : ∀ e ∈ P, ∀ e' ∈ P, e.proof.proofid = e'.proof.proofid → e.proof = e'.proof)
    {e e' : ProofPoolEntry} (he : e ∈ P) (he' : e' ∈ P) (hne : e.proof ≠ e'.proof) :
    ConflictingProofComparator e.proof e'.proof = true ∨
      ConflictingProofComparator e'.proof e.proof = true :=
  ConflictingProofComparator_total fun h => hne (hsame e he e' he' h)

/-- A stake whose outpoint neither the old pool nor the loop has: its entry
goes in. -/
theorem AttachInv.step_fresh {done : List COutPoint} {acc : List ProofPoolEntry × ConflictingProofSet}
    (h : AttachInv P proof done acc) (i : Fin proof.proof.stakes.length)
    (hP' : (⟨i, proof, i.isLt⟩ : ProofPoolEntry).getUTXO ∉ P.map (·.getUTXO))
    (hdone : (⟨i, proof, i.isLt⟩ : ProofPoolEntry).getUTXO ∉ done) :
    AttachInv P proof (done ++ [(⟨i, proof, i.isLt⟩ : ProofPoolEntry).getUTXO])
      (acc.1 ++ [⟨i, proof, i.isLt⟩], acc.2) := by
  obtain ⟨N, hacc, hN⟩ := h.pool_eq
  have hnotN : (⟨i, proof, i.isLt⟩ : ProofPoolEntry).getUTXO ∉ N.map (·.getUTXO) := by
    intro hmem
    obtain ⟨e, he, heq⟩ := List.mem_map.mp hmem
    exact hdone (heq ▸ hN.mem_done e he)
  refine ⟨⟨N ++ [⟨i, proof, i.isLt⟩], by rw [hacc, List.append_assoc], ⟨?_, ?_, ?_, ?_⟩⟩, ?_, ?_, h.sorted⟩
  · intro e he
    rcases List.mem_append.mp he with he | he
    · exact hN.proof_eq e he
    · rw [List.mem_singleton.mp he]
  · rw [List.map_append, List.map_singleton, List.nodup_append]
    exact ⟨hN.nodup, List.nodup_singleton _, fun a ha b hb hab => hnotN (by
      rw [List.mem_singleton.mp hb] at hab
      exact hab ▸ ha)⟩
  · intro e he
    rcases List.mem_append.mp he with he | he
    · exact hN.fresh e he
    · rw [List.mem_singleton.mp he]
      exact hP'
  · intro e he
    rcases List.mem_append.mp he with he | he
    · exact List.mem_append_left _ (hN.mem_done e he)
    · rw [List.mem_singleton.mp he]
      exact List.mem_append_right _ (List.mem_singleton_self _)
  · intro v hv
    rw [List.map_append]
    rcases List.mem_append.mp hv with hv | hv
    · exact List.mem_append_left _ (h.covers v hv)
    · rw [List.mem_singleton.mp hv]
      exact List.mem_append_right _ (List.mem_singleton_self _)
  · intro q
    rw [h.mem_conflicts]
    constructor
    · rintro ⟨e, he, rfl, hd⟩
      exact ⟨e, he, rfl, List.mem_append_left _ hd⟩
    · rintro ⟨e, he, rfl, hd⟩
      rcases List.mem_append.mp hd with hd | hd
      · exact ⟨e, he, rfl, hd⟩
      · rw [List.mem_singleton] at hd
        exact absurd (hd ▸ List.mem_map_of_mem he) hP'

section Step

variable (hP : (P.map (·.getUTXO)).Nodup)
  (hsame : ∀ e ∈ P, ∀ e' ∈ P, e.proof.proofid = e'.proof.proofid → e.proof = e'.proof)
include hP hsame

/-- A stake whose outpoint the old pool has: the entry found is an old one,
and its proof joins the set. -/
theorem AttachInv.step_conflict {done : List COutPoint} {acc : List ProofPoolEntry × ConflictingProofSet}
    (h : AttachInv P proof done acc) (i : Fin proof.proof.stakes.length)
    (hsub : ∀ u ∈ done, u ∈ proof.utxos) {old : ProofPoolEntry} (hold : old ∈ P)
    (hu : old.getUTXO = (⟨i, proof, i.isLt⟩ : ProofPoolEntry).getUTXO) :
    AttachInv P proof (done ++ [(⟨i, proof, i.isLt⟩ : ProofPoolEntry).getUTXO])
      (acc.1, acc.2.insert ConflictingProofComparator old.proof) := by
  obtain ⟨N, hacc, hN⟩ := h.pool_eq
  have hold_conf : old.proof ∈ conflictsOf P proof := by
    refine mem_conflictsOf.mpr ⟨old, hold, rfl, ?_⟩
    rw [hu, ← map_finRange_getUTXO]
    exact List.mem_map_of_mem (List.mem_finRange i)
  have htree_conf : ∀ q ∈ acc.2.toList, q ∈ conflictsOf P proof := by
    intro q hq
    obtain ⟨e, he, rfl, hd⟩ := (h.mem_conflicts q).mp hq
    exact mem_conflictsOf.mpr ⟨e, he, rfl, hsub _ hd⟩
  have htotal : ∀ x ∈ acc.2.toList, x ≠ old.proof →
      ConflictingProofComparator x old.proof = true ∨ ConflictingProofComparator old.proof x = true := by
    intro x hx hne
    obtain ⟨e, he, rfl, -⟩ := (h.mem_conflicts x).mp hx
    exact total_of_sameId hsame he hold hne
  refine ⟨⟨N, hacc, ⟨hN.proof_eq, hN.nodup, hN.fresh, fun e he => ?_⟩⟩, ?_, ?_, ?_⟩
  · exact List.mem_append_left _ (hN.mem_done e he)
  · intro v hv
    rcases List.mem_append.mp hv with hv | hv
    · exact h.covers v hv
    · rw [List.mem_singleton.mp hv, ← hu, hacc, List.map_append]
      exact List.mem_append_left _ (List.mem_map_of_mem hold)
  · intro q
    rw [SearchTree.Tree.mem_toList_insert _ htotal, h.mem_conflicts]
    constructor
    · rintro (rfl | ⟨e, he, rfl, hd⟩)
      · exact ⟨old, hold, rfl, by simp [hu]⟩
      · exact ⟨e, he, rfl, List.mem_append_left _ hd⟩
    · rintro ⟨e, he, rfl, hd⟩
      rcases List.mem_append.mp hd with hd | hd
      · exact Or.inr ⟨e, he, rfl, hd⟩
      · -- the one old entry of this outpoint is `old`
        rw [List.mem_singleton, ← hu] at hd
        exact Or.inl (by rw [eq_of_getUTXO_eq hP he hold hd])
  · intro hord
    refine SearchTree.Tree.pairwise_toList_insert _ (hord.mono _ fun x hx => ?_) (h.sorted hord)
    rcases List.mem_cons.mp hx with rfl | hx
    · exact hold_conf
    · exact htree_conf x hx

/-- One turn of the attach loop keeps `AttachInv`. -/
theorem AttachInv.step {done : List COutPoint} {acc : List ProofPoolEntry × ConflictingProofSet}
    (h : AttachInv P proof done acc) (i : Fin proof.proof.stakes.length)
    (hsub : ∀ u ∈ done, u ∈ proof.utxos)
    (hdone : (⟨i, proof, i.isLt⟩ : ProofPoolEntry).getUTXO ∉ done) :
    AttachInv P proof (done ++ [(⟨i, proof, i.isLt⟩ : ProofPoolEntry).getUTXO])
      (attachUtxo proof acc i) := by
  obtain ⟨N, hacc, hN⟩ := h.pool_eq
  unfold attachUtxo emplace
  by_cases hP' : (⟨i, proof, i.isLt⟩ : ProofPoolEntry).getUTXO ∈ P.map (·.getUTXO)
  · -- the lookup stops in the old pool
    obtain ⟨old, hf, hold, hu⟩ := find?_getUTXO_of_mem hP'
    rw [hacc, List.find?_append, hf, Option.some_or]
    exact hacc ▸ h.step_conflict hP hsame i hsub hold hu
  · have hnotN : (⟨i, proof, i.isLt⟩ : ProofPoolEntry).getUTXO ∉ N.map (·.getUTXO) := by
      intro hmem
      obtain ⟨e, he, heq⟩ := List.mem_map.mp hmem
      exact hdone (heq ▸ hN.mem_done e he)
    rw [hacc, List.find?_append, find?_getUTXO_eq_none hP', find?_getUTXO_eq_none hnotN,
      Option.none_or]
    exact hacc ▸ h.step_fresh i hP' hdone

/-- The whole attach loop, by induction on the stakes still to attach. -/
theorem AttachInv.foldl :
    ∀ (is : List (Fin proof.proof.stakes.length)) {done : List COutPoint}
      {acc : List ProofPoolEntry × ConflictingProofSet}, AttachInv P proof done acc →
      (∀ u ∈ done, u ∈ proof.utxos) →
      (done ++ is.map fun (i : Fin proof.proof.stakes.length) => (⟨i, proof, i.isLt⟩ : ProofPoolEntry).getUTXO).Nodup →
      AttachInv P proof (done ++ is.map fun (i : Fin proof.proof.stakes.length) => (⟨i, proof, i.isLt⟩ : ProofPoolEntry).getUTXO)
        (is.foldl (attachUtxo proof) acc)
  | [], done, acc, h, _, _ => by simpa using h
  | i :: is, done, acc, h, hsub, hnd => by
    have hnd' : (done ++ [(⟨i, proof, i.isLt⟩ : ProofPoolEntry).getUTXO] ++
        is.map fun (i : Fin proof.proof.stakes.length) => (⟨i, proof, i.isLt⟩ : ProofPoolEntry).getUTXO).Nodup := by
      simpa using hnd
    have hdone : (⟨i, proof, i.isLt⟩ : ProofPoolEntry).getUTXO ∉ done := by
      intro hmem
      exact (List.nodup_append.mp (List.nodup_append.mp hnd').1).2.2 _ hmem _
        (List.mem_singleton_self _) rfl
    have hsub' : ∀ u ∈ done ++ [(⟨i, proof, i.isLt⟩ : ProofPoolEntry).getUTXO], u ∈ proof.utxos := by
      intro u hu
      rcases List.mem_append.mp hu with hu | hu
      · exact hsub u hu
      · rw [List.mem_singleton.mp hu, ← map_finRange_getUTXO]
        exact List.mem_map_of_mem (List.mem_finRange i)
    have ih := AttachInv.foldl is (h.step hP hsame i hsub hdone) hsub' hnd'
    simpa using ih

/-- After the loop, every stake of the proof has been attached. -/
theorem attachInv_finRange (hnd : proof.utxos.Nodup) :
    AttachInv P proof proof.utxos
      ((List.finRange proof.proof.stakes.length).foldl (attachUtxo proof) (P, .leaf)) := by
  have h := AttachInv.foldl hP hsame (List.finRange proof.proof.stakes.length) AttachInv.init
    (by simp) (by rw [List.nil_append, map_finRange_getUTXO]; exact hnd)
  rwa [List.nil_append, map_finRange_getUTXO] at h

end Step

end Attach

/-! ## The clean-up loop -/

section Erase

variable {P : List ProofPoolEntry} {pid : ProofId}

/-- The clean-up loop takes out exactly the entries the attach loop added and
never fails its `assert`. The induction is on the stakes still to clean, with
`N` what is left of the new entries. -/
theorem eraseOwnUtxos_eq (hPid : ∀ e ∈ P, e.proof.proofid ≠ pid) :
    ∀ (ss : List SignedStake) (N : List ProofPoolEntry), (ss.map (·.stake.utxo)).Nodup →
      (∀ e ∈ N, e.proof.proofid = pid) → (N.map (·.getUTXO)).Nodup →
      (∀ e ∈ N, e.getUTXO ∉ P.map (·.getUTXO)) → (∀ e ∈ N, e.getUTXO ∈ ss.map (·.stake.utxo)) →
      (∀ s ∈ ss, s.stake.utxo ∈ (P ++ N).map (·.getUTXO)) →
      eraseOwnUtxos pid (P ++ N) ss = some P
  | [], N, _, _, _, _, hdone, _ => by
    have hN : N = [] := List.eq_nil_iff_forall_not_mem.mpr fun e he => by simpa using hdone e he
    rw [hN, List.append_nil, eraseOwnUtxos]
  | s :: ss, N, hnd, hid, hNnd, hfresh, hdone, hcov => by
    rw [List.map_cons, List.nodup_cons] at hnd
    have hdone' : ∀ e ∈ N, e.getUTXO = s.stake.utxo ∨ e.getUTXO ∈ ss.map (·.stake.utxo) :=
      fun e he => List.mem_cons.mp (by simpa using hdone e he)
    have hcov' : ∀ s' ∈ ss, s'.stake.utxo ∈ (P ++ N).map (·.getUTXO) :=
      fun s' hs' => hcov s' (List.mem_cons_of_mem _ hs')
    rw [eraseOwnUtxos]
    by_cases hsP : s.stake.utxo ∈ P.map (·.getUTXO)
    · -- the outpoint is an old entry's: nothing is erased
      obtain ⟨it, hf, hit, -⟩ := find?_getUTXO_of_mem hsP
      rw [List.find?_append, hf, Option.some_or]
      dsimp only
      rw [if_neg (hPid it hit)]
      refine eraseOwnUtxos_eq hPid ss N hnd.2 hid hNnd hfresh (fun e he => ?_) hcov'
      rcases hdone' e he with h1 | h1
      · exact absurd (h1 ▸ hsP) (hfresh e he)
      · exact h1
    · -- the outpoint is a new entry's, which is erased
      have hsN : s.stake.utxo ∈ N.map (·.getUTXO) := by
        have h1 := hcov s (List.mem_cons_self ..)
        rw [List.map_append] at h1
        exact (List.mem_append.mp h1).resolve_left hsP
      obtain ⟨it, hf, hit, -⟩ := find?_getUTXO_of_mem hsN
      have hnotP : ∀ b ∈ P, ¬ (b.getUTXO == s.stake.utxo) = true := by
        intro b hb heq
        exact hsP (List.mem_map.mpr ⟨b, hb, by simpa using heq⟩)
      rw [List.find?_append, find?_getUTXO_eq_none hsP, Option.none_or, hf]
      dsimp only
      rw [if_pos (hid it hit), List.eraseP_append_right _ hnotP, eraseP_getUTXO_eq_filter hNnd]
      refine eraseOwnUtxos_eq hPid ss _ hnd.2 (fun e he => hid e (List.mem_of_mem_filter he))
        ((List.filter_sublist.map _).nodup hNnd)
        (fun e he => hfresh e (List.mem_of_mem_filter he)) (fun e he => ?_) (fun s' hs' => ?_)
      · have hne : e.getUTXO ≠ s.stake.utxo := by simpa using (List.mem_filter.mp he).2
        exact (hdone' e (List.mem_of_mem_filter he)).resolve_left hne
      · have hne : s'.stake.utxo ≠ s.stake.utxo := fun h => hnd.1 (h ▸ List.mem_map_of_mem hs')
        have h1 := hcov' s' hs'
        rw [List.map_append, List.mem_append] at h1 ⊢
        refine h1.imp id fun h2 => ?_
        obtain ⟨e, he, heq⟩ := List.mem_map.mp h2
        exact List.mem_map.mpr ⟨e, List.mem_filter.mpr ⟨he, by simpa [heq] using hne⟩, heq⟩

end Erase

/-! ## What a call does -/

/-- The ids of the proofs in the pool. -/
def proofIds (pool : List ProofPoolEntry) : Finset ProofId := (pool.map (·.proof.proofid)).toFinset

/-- What the container keeps true of its entries: an outpoint is mapped to one
entry; a proof in the pool has an entry for each of its stakes; one id is one
proof; no id is zero. -/
structure PoolInv (pool : List ProofPoolEntry) : Prop where
  utxo_nodup : (pool.map (·.getUTXO)).Nodup
  whole : ∀ e ∈ pool, ∀ s ∈ e.proof.proof.stakes,
    ∃ e' ∈ pool, e'.getUTXO = s.stake.utxo ∧ e'.proof = e.proof
  sameId : ∀ e ∈ pool, ∀ e' ∈ pool, e.proof.proofid = e'.proof.proofid → e.proof = e'.proof
  nonzero : ∀ e ∈ pool, e.proof.proofid ≠ ProofId.ZERO

/-- The set a call fills: the proofs of the pool that share an outpoint with
the candidate, sorted when the comparator orders them. -/
structure Conflicts (P : List ProofPoolEntry) (proof : ProofRef) (cs : ConflictingProofSet) : Prop where
  mem : ∀ q, q ∈ cs.toList ↔ ∃ e ∈ P, e.proof = q ∧ e.getUTXO ∈ proof.utxos
  sorted : SearchTree.Tree.StrictTotalOn ConflictingProofComparator (conflictsOf P proof) →
    cs.toList.Pairwise (ConflictingProofComparator · ·)

/-- When the candidate shares an outpoint with the pool, the set is not empty:
`begin()` is its first element. -/
theorem Conflicts.exists_begin {P : List ProofPoolEntry} {proof : ProofRef} {cs : ConflictingProofSet}
    (hcs : Conflicts P proof cs) (hconf : ∃ e ∈ P, e.getUTXO ∈ proof.utxos) :
    ∃ best rest, cs.toList = best :: rest ∧ cs.begin? = some best := by
  obtain ⟨e, he, hu⟩ := hconf
  cases hl : cs.toList with
  | nil => exact absurd ((hcs.mem e.proof).mpr ⟨e, he, rfl, hu⟩) (by simp [hl])
  | cons best rest => exact ⟨best, rest, rfl, by rw [SearchTree.Tree.begin?, hl, List.head?_cons]⟩

section Add

variable {pp : ProofPool} {proof : ProofRef}

theorem addProofIfNoConflict_of_mem (h : proof.proofid ∈ pp.pool.map (·.proof.proofid)) :
    pp.addProofIfNoConflict proof = some (.DUPLICATED, .leaf, pp) := by
  have hany : pp.pool.any (·.proof.proofid == proof.proofid) = true := by
    obtain ⟨e, he, heq⟩ := List.mem_map.mp h
    exact List.any_eq_true.mpr ⟨e, he, by simpa using heq⟩
  rw [addProofIfNoConflict, if_pos hany]

theorem size_pos_iff {cs : ConflictingProofSet} (h : Conflicts pp.pool proof cs) :
    cs.size > 0 ↔ ∃ e ∈ pp.pool, e.getUTXO ∈ proof.utxos := by
  rw [SearchTree.Tree.size, gt_iff_lt, List.length_pos_iff_exists_mem]
  constructor
  · rintro ⟨q, hq⟩
    obtain ⟨e, he, -, hu⟩ := (h.mem q).mp hq
    exact ⟨e, he, hu⟩
  · rintro ⟨e, he, hu⟩
    exact ⟨e.proof, (h.mem _).mpr ⟨e, he, rfl, hu⟩⟩

/-- What `addProofIfNoConflict` does with a proof whose id is new: it fills the
set with the conflicting proofs and either rejects the proof, leaving the pool
as it was, or, when nothing conflicts, adds an entry for each stake. -/
theorem addProofIfNoConflict_of_not_mem (hinv : PoolInv pp.pool) (hnd : proof.utxos.Nodup)
    (h : proof.proofid ∉ pp.pool.map (·.proof.proofid)) :
    ∃ cs, Conflicts pp.pool proof cs ∧
      ((∃ e ∈ pp.pool, e.getUTXO ∈ proof.utxos) ∧
          pp.addProofIfNoConflict proof = some (.REJECTED, cs, pp) ∨
        (∀ e ∈ pp.pool, e.getUTXO ∉ proof.utxos) ∧ ∃ N, NewEntries pp.pool proof proof.utxos N ∧
          (∀ u ∈ proof.utxos, u ∈ (pp.pool ++ N).map (·.getUTXO)) ∧
          pp.addProofIfNoConflict proof =
            some (.SUCCEED, cs, { pp with pool := pp.pool ++ N, cacheClean := false })) := by
  have hany : pp.pool.any (·.proof.proofid == proof.proofid) = false := by
    rw [Bool.eq_false_iff, ne_eq, List.any_eq_true]
    rintro ⟨e, he, heq⟩
    exact h (List.mem_map.mpr ⟨e, he, by simpa using heq⟩)
  have hPid : ∀ e ∈ pp.pool, e.proof.proofid ≠ proof.proofid :=
    fun e he heq => h (heq ▸ List.mem_map_of_mem he)
  have hattach := attachInv_finRange hinv.utxo_nodup hinv.sameId hnd
  simp only [addProofIfNoConflict, hany, Bool.false_eq_true, if_false]
  generalize (List.finRange proof.proof.stakes.length).foldl (attachUtxo proof) (pp.pool, .leaf) = r
    at hattach ⊢
  obtain ⟨pool', cs⟩ := r
  obtain ⟨N, hpool, hN⟩ := hattach.pool_eq
  change pool' = pp.pool ++ N at hpool
  have hcs : Conflicts pp.pool proof cs := ⟨hattach.mem_conflicts, hattach.sorted⟩
  refine ⟨cs, hcs, ?_⟩
  by_cases hconf : ∃ e ∈ pp.pool, e.getUTXO ∈ proof.utxos
  · -- a collision: the clean-up gives the old pool back
    refine Or.inl ⟨hconf, ?_⟩
    have herase : eraseOwnUtxos proof.proofid pool' proof.proof.stakes = some pp.pool := by
      rw [hpool]
      exact eraseOwnUtxos_eq hPid _ N hnd (fun e he => by rw [hN.proof_eq e he]) hN.nodup hN.fresh
        hN.mem_done (fun s hs => hpool ▸ hattach.covers _ (List.mem_map_of_mem hs))
    dsimp only
    rw [if_pos ((size_pos_iff hcs).mpr hconf), herase]
    rfl
  · refine Or.inr ⟨fun e he hu => hconf ⟨e, he, hu⟩, N, hN, hpool ▸ hattach.covers, ?_⟩
    dsimp only
    rw [if_neg (mt (size_pos_iff hcs).mp hconf), hpool]

end Add

/-! ## The invariant along a run -/

section Invariant

variable {P N : List ProofPoolEntry} {proof : ProofRef}

/-- Dropping the entries of some ids keeps the invariant: a proof goes with
all its entries. -/
theorem PoolInv.filter_id (h : PoolInv P) (keep : ProofId → Bool) :
    PoolInv (P.filter fun e => keep e.proof.proofid) where
  utxo_nodup := (List.filter_sublist.map _).nodup h.utxo_nodup
  whole e he s hs := by
    obtain ⟨he, hk⟩ := List.mem_filter.mp he
    obtain ⟨e', he', hu, hp⟩ := h.whole e he s hs
    exact ⟨e', List.mem_filter.mpr ⟨he', by rw [hp]; exact hk⟩, hu, hp⟩
  sameId e he e' he' := h.sameId e (List.mem_of_mem_filter he) e' (List.mem_of_mem_filter he')
  nonzero e he := h.nonzero e (List.mem_of_mem_filter he)

/-- Adding the entries of a new proof that conflicts with nothing keeps the
invariant. -/
theorem PoolInv.append_new (h : PoolInv P) (hN : NewEntries P proof proof.utxos N)
    (hcov : ∀ u ∈ proof.utxos, u ∈ (P ++ N).map (·.getUTXO))
    (hfree : ∀ e ∈ P, e.getUTXO ∉ proof.utxos) (hid : proof.proofid ∉ P.map (·.proof.proofid))
    (hnz : proof.proofid ≠ ProofId.ZERO) : PoolInv (P ++ N) where
  utxo_nodup := by
    rw [List.map_append, List.nodup_append]
    refine ⟨h.utxo_nodup, hN.nodup, fun a ha b hb hab => ?_⟩
    obtain ⟨e, he, rfl⟩ := List.mem_map.mp hb
    exact hN.fresh e he (hab ▸ ha)
  whole e he s hs := by
    rcases List.mem_append.mp he with he | he
    · obtain ⟨e', he', hu, hp⟩ := h.whole e he s hs
      exact ⟨e', List.mem_append_left _ he', hu, hp⟩
    · -- a stake of the new proof: its entry is a new one, the old pool being free of it
      have hsu : s.stake.utxo ∈ proof.utxos := by
        rw [hN.proof_eq e he] at hs
        exact List.mem_map_of_mem hs
      have h1 := hcov _ hsu
      rw [List.map_append, List.mem_append] at h1
      rcases h1 with h1 | h1
      · obtain ⟨e', he', hu⟩ := List.mem_map.mp h1
        exact absurd (hu ▸ hsu) (hfree e' he')
      · obtain ⟨e', he', hu⟩ := List.mem_map.mp h1
        exact ⟨e', List.mem_append_right _ he', hu, by rw [hN.proof_eq e' he', hN.proof_eq e he]⟩
  sameId e he e' he' hee' := by
    rcases List.mem_append.mp he with he | he <;> rcases List.mem_append.mp he' with he' | he'
    · exact h.sameId e he e' he' hee'
    · rw [hN.proof_eq e' he'] at hee'
      exact absurd (hee' ▸ List.mem_map_of_mem he) hid
    · rw [hN.proof_eq e he] at hee'
      exact absurd (hee'.symm ▸ List.mem_map_of_mem he') hid
    · rw [hN.proof_eq e he, hN.proof_eq e' he']
  nonzero e he := by
    rcases List.mem_append.mp he with he | he
    · exact h.nonzero e he
    · rw [hN.proof_eq e he]
      exact hnz

/-- `addProofIfNoConflict` keeps the invariant, for a proof of pairwise
different outpoints and an id that is not zero. -/
theorem PoolInv.addProofIfNoConflict {pp pp' : ProofPool} {status : AddProofStatus}
    {cs : ConflictingProofSet} (h : PoolInv pp.pool) (hnd : proof.utxos.Nodup)
    (hnz : proof.proofid ≠ ProofId.ZERO)
    (hadd : pp.addProofIfNoConflict proof = some (status, cs, pp')) :
    PoolInv pp'.pool ∧ (pp' = pp ∨ pp'.cacheClean = false) := by
  by_cases hmem : proof.proofid ∈ pp.pool.map (·.proof.proofid)
  · rw [addProofIfNoConflict_of_mem hmem] at hadd
    obtain ⟨-, -, rfl⟩ := Option.some.inj hadd
    exact ⟨h, Or.inl rfl⟩
  · obtain ⟨cs', -, ⟨-, hrej⟩ | ⟨hfree, N, hN, hcov, hsucc⟩⟩ :=
      addProofIfNoConflict_of_not_mem h hnd hmem
    · rw [hrej] at hadd
      obtain ⟨-, -, rfl⟩ := Option.some.inj hadd
      exact ⟨h, Or.inl rfl⟩
    · rw [hsucc] at hadd
      obtain ⟨-, -, rfl⟩ := Option.some.inj hadd
      exact ⟨h.append_new hN hcov hfree hmem hnz, Or.inr rfl⟩

end Invariant

/-! ## Removal and counting -/

section Count

/-- Removing the proofs of a list one after the other keeps the entries of the
other ids. -/
theorem pool_foldl_removeProof : ∀ (cs : List ProofRef) (pp : ProofPool),
    (cs.foldl (fun pp c => (pp.removeProof c.proofid).2) pp).pool =
      pp.pool.filter fun e => cs.all fun c => e.proof.proofid != c.proofid
  | [], pp => by simp
  | c :: cs, pp => by
    rw [List.foldl_cons, pool_foldl_removeProof cs]
    change (pp.pool.filter (·.proof.proofid != c.proofid)).filter _ = _
    rw [List.filter_filter]
    congr 1
    funext e
    rw [List.all_cons, Bool.and_comm]

/-- The ids of the entries in the order of a walk: an id met again is met
again at once. -/
def Grouped : List ProofId → Prop
  | [] => True
  | a :: l => (a ∈ l → l.head? = some a) ∧ Grouped l

/-- An order the by-proof-id index may list the entries in: each entry once,
the entries of one id together. -/
structure ByProofIdOrder (pool byProofId : List ProofPoolEntry) : Prop where
  perm : byProofId.Perm pool
  grouped : Grouped (byProofId.map (·.proof.proofid))

/-- A walk visits one proof per id, except the id it starts from. The
induction is on the entries, with the run of the last id seen carried in the
grouping hypothesis. -/
theorem length_forEachProof : ∀ (last : ProofId) (es : List ProofPoolEntry),
    Grouped (last :: es.map (·.proof.proofid)) →
      (forEachProof last es).length = ((es.map (·.proof.proofid)).toFinset.erase last).card
  | last, [], _ => by simp [forEachProof]
  | last, e :: es, h => by
    obtain ⟨hlast, hg⟩ := h
    rw [List.map_cons, List.toFinset_cons]
    by_cases hk : last = e.proof.proofid
    · -- the entry continues the run of `last`: nothing is visited
      subst hk
      rw [forEachProof, if_neg (not_not.mpr rfl), Finset.erase_insert_eq_erase]
      exact length_forEachProof _ es hg
    · -- a new run starts: its proof is visited once
      have hnot : last ∉ insert e.proof.proofid (es.map (·.proof.proofid)).toFinset := by
        intro hmem
        have hhead := hlast (by simpa using hmem)
        exact hk (Option.some.inj hhead).symm
      have hins := Finset.card_erase_add_one
        (Finset.mem_insert_self e.proof.proofid (es.map (·.proof.proofid)).toFinset)
      rw [Finset.erase_insert_eq_erase] at hins
      rw [forEachProof, if_pos hk, List.length_cons, length_forEachProof _ es hg,
        Finset.erase_eq_of_notMem hnot, hins]

/-- The walk of `countProofs` counts the proofs of a pool whose ids are not
zero. -/
theorem length_forEachProof_ZERO {pool byProofId : List ProofPoolEntry} (h : PoolInv pool)
    (hord : ByProofIdOrder pool byProofId) :
    (forEachProof ProofId.ZERO byProofId).length = (proofIds pool).card := by
  have hperm := hord.perm.map (·.proof.proofid)
  have hz : ProofId.ZERO ∉ byProofId.map (·.proof.proofid) := by
    intro hmem
    obtain ⟨e, he, heq⟩ := List.mem_map.mp (hperm.mem_iff.mp hmem)
    exact h.nonzero e he heq
  rw [length_forEachProof _ _ ⟨fun hmem => absurd hmem hz, hord.grouped⟩,
    Finset.erase_eq_of_notMem (by simpa using hz), proofIds, List.toFinset_eq_of_perm _ _ hperm]

end Count

/-- The invariant of the pool with its cache: a clean cache holds the number
of proofs. -/
structure Inv (pp : ProofPool) : Prop where
  pool : PoolInv pp.pool
  cache : pp.cacheClean = true → pp.cacheProofCount = (proofIds pp.pool).card

section Run

variable {pp pp' : ProofPool} {proof : ProofRef} {status : AddProofStatus} {cs : ConflictingProofSet}

theorem Inv.countProofs (h : Inv pp) {byProofId : List ProofPoolEntry}
    (hord : ByProofIdOrder pp.pool byProofId) :
    (pp.countProofs byProofId).1 = (proofIds pp.pool).card ∧ Inv (pp.countProofs byProofId).2 := by
  unfold ProofPool.countProofs
  split
  · rename_i hclean
    exact ⟨h.cache hclean, h⟩
  · have hcount := length_forEachProof_ZERO h.pool hord
    exact ⟨hcount, ⟨h.pool, fun _ => hcount⟩⟩

theorem Inv.removeProof (h : Inv pp) (proofid : ProofId) : Inv (pp.removeProof proofid).2 where
  pool := h.pool.filter_id (· != proofid)
  cache hclean := by simp [ProofPool.removeProof] at hclean

theorem Inv.addProofIfNoConflict (h : Inv pp) (hnd : proof.utxos.Nodup)
    (hnz : proof.proofid ≠ ProofId.ZERO) (hadd : pp.addProofIfNoConflict proof = some (status, cs, pp')) :
    Inv pp' := by
  obtain ⟨hpool, rfl | hclean⟩ := h.pool.addProofIfNoConflict hnd hnz hadd
  · exact h
  · exact ⟨hpool, fun h' => absurd (hclean ▸ h') Bool.false_ne_true⟩

/-- What `addProofIfPreferred` can do: answer as `addProofIfNoConflict`, or,
after a rejection whose first conflicting proof the candidate beats, remove
every conflicting proof and add the candidate. -/
theorem addProofIfPreferred_cases (h : pp.addProofIfPreferred proof = some (status, cs, pp')) :
    pp.addProofIfNoConflict proof = some (status, cs, pp') ∨
      ∃ pp₁ best cs₂ pp₂, pp.addProofIfNoConflict proof = some (.REJECTED, cs, pp₁) ∧
        cs.begin? = some best ∧ ConflictingProofComparator best proof = false ∧
        (cs.toList.foldl (fun pp c => (pp.removeProof c.proofid).2) pp₁).addProofIfNoConflict proof =
          some (.SUCCEED, cs₂, pp₂) ∧
        status = .SUCCEED ∧ pp' = { pp₂ with cacheClean := false } := by
  unfold addProofIfPreferred at h
  cases h₁ : pp.addProofIfNoConflict proof with
  | none => simp [h₁] at h
  | some r =>
    obtain ⟨status₁, cs₁, pp₁⟩ := r
    simp only [h₁, Option.bind_eq_bind] at h
    dsimp only [Option.bind] at h
    by_cases hrej : status₁ = .REJECTED
    · subst hrej
      simp only [bne_self_eq_false, Bool.false_eq_true, if_false] at h
      cases hb : cs₁.begin? with
      | none => simp [hb] at h
      | some best =>
        simp only [hb] at h
        by_cases hc : ConflictingProofComparator best proof = true
        · -- the candidate loses to the first conflicting proof: answered as the first call
          simp only [hc, if_true] at h
          exact Or.inl h
        · -- the candidate wins: the conflicting proofs go and it is added again
          simp only [hc, Bool.false_eq_true, if_false] at h
          cases h₂ : (cs₁.toList.foldl (fun pp c => (pp.removeProof c.proofid).2) pp₁).addProofIfNoConflict
              proof with
          | none => simp [h₂] at h
          | some r₂ =>
            obtain ⟨status₂, cs₂, pp₂⟩ := r₂
            simp only [h₂] at h
            by_cases hs : status₂ = .SUCCEED
            · subst hs
              simp only [bne_self_eq_false, Bool.false_eq_true, if_false, pure, Option.some.injEq,
                Prod.mk.injEq] at h
              obtain ⟨rfl, rfl, rfl⟩ := h
              exact Or.inr ⟨pp₁, best, cs₂, pp₂, rfl, hb, by simpa using hc, h₂, rfl, rfl⟩
            · have hne : (status₂ != .SUCCEED) = true := by simpa using hs
              simp [hne] at h
    · have hne : (status₁ != .REJECTED) = true := by simpa using hrej
      simp only [hne, if_true] at h
      exact Or.inl h

/-- After the conflicting proofs are removed, nothing conflicts with the
candidate any more. -/
theorem no_conflict_after_removal (hcs : Conflicts pp.pool proof cs) :
    ∀ e ∈ (cs.toList.foldl (fun pp c => (pp.removeProof c.proofid).2) pp).pool,
      e.getUTXO ∉ proof.utxos := by
  intro e he hu
  rw [pool_foldl_removeProof, List.mem_filter] at he
  obtain ⟨he, hall⟩ := he
  have hmem : e.proof ∈ cs.toList := (hcs.mem _).mpr ⟨e, he, rfl, hu⟩
  have := List.all_eq_true.mp hall e.proof hmem
  simp at this

/-- The second `addProofIfNoConflict` of `addProofIfPreferred` succeeds: its
`assert` holds. -/
theorem addProofIfNoConflict_after_removal (hinv : PoolInv pp.pool) (hnd : proof.utxos.Nodup)
    (hnew : proof.proofid ∉ pp.pool.map (·.proof.proofid)) (hcs : Conflicts pp.pool proof cs) :
    ∃ cs₂ pp₂, (cs.toList.foldl (fun pp c => (pp.removeProof c.proofid).2) pp).addProofIfNoConflict
      proof = some (.SUCCEED, cs₂, pp₂) := by
  have hsub : ∀ e ∈ (cs.toList.foldl (fun pp c => (pp.removeProof c.proofid).2) pp).pool, e ∈ pp.pool := by
    intro e he
    rw [pool_foldl_removeProof] at he
    exact List.mem_of_mem_filter he
  have hinv₂ : PoolInv (cs.toList.foldl (fun pp c => (pp.removeProof c.proofid).2) pp).pool := by
    rw [pool_foldl_removeProof]
    exact hinv.filter_id fun pid => cs.toList.all fun c => pid != c.proofid
  have hnew₂ : proof.proofid ∉ (cs.toList.foldl (fun pp c => (pp.removeProof c.proofid).2) pp).pool.map
      (·.proof.proofid) := by
    intro hmem
    obtain ⟨e, he, heq⟩ := List.mem_map.mp hmem
    exact hnew (heq ▸ List.mem_map_of_mem (hsub e he))
  obtain ⟨cs₂, -, ⟨⟨e, he, hu⟩, -⟩ | ⟨-, N, -, -, hsucc⟩⟩ :=
    addProofIfNoConflict_of_not_mem hinv₂ hnd hnew₂
  · exact absurd hu (no_conflict_after_removal hcs e he)
  · exact ⟨cs₂, _, hsucc⟩

theorem addProofIfPreferred_of_loses {pp₁ : ProofPool} {best : ProofRef}
    (h₁ : pp.addProofIfNoConflict proof = some (.REJECTED, cs, pp₁)) (hb : cs.begin? = some best)
    (hc : ConflictingProofComparator best proof = true) :
    pp.addProofIfPreferred proof = some (.REJECTED, cs, pp₁) := by
  simp only [addProofIfPreferred, h₁, Option.bind_eq_bind]
  dsimp only [Option.bind]
  simp only [bne_self_eq_false, Bool.false_eq_true, if_false, hb, hc, if_true]
  rfl

theorem addProofIfPreferred_of_beats {pp₁ pp₂ : ProofPool} {best : ProofRef} {cs₂ : ConflictingProofSet}
    (h₁ : pp.addProofIfNoConflict proof = some (.REJECTED, cs, pp₁)) (hb : cs.begin? = some best)
    (hc : ConflictingProofComparator best proof = false)
    (h₂ : (cs.toList.foldl (fun pp c => (pp.removeProof c.proofid).2) pp₁).addProofIfNoConflict proof =
      some (.SUCCEED, cs₂, pp₂)) :
    pp.addProofIfPreferred proof = some (.SUCCEED, cs, { pp₂ with cacheClean := false }) := by
  simp only [addProofIfPreferred, h₁, Option.bind_eq_bind]
  dsimp only [Option.bind]
  simp only [bne_self_eq_false, Bool.false_eq_true, if_false, hb, hc, h₂]
  rfl

theorem Inv.addProofIfPreferred (h : Inv pp) (hnd : proof.utxos.Nodup)
    (hnz : proof.proofid ≠ ProofId.ZERO) (hadd : pp.addProofIfPreferred proof = some (status, cs, pp')) :
    Inv pp' := by
  rcases addProofIfPreferred_cases hadd with h₁ | ⟨pp₁, -, cs₂, pp₂, h₁, -, -, h₂, -, rfl⟩
  · exact h.addProofIfNoConflict hnd hnz h₁
  · have hinv₁ := h.addProofIfNoConflict hnd hnz h₁
    have hpool₂ : PoolInv (cs.toList.foldl (fun pp c => (pp.removeProof c.proofid).2) pp₁).pool := by
      rw [pool_foldl_removeProof]
      exact hinv₁.pool.filter_id fun pid => cs.toList.all fun c => pid != c.proofid
    exact ⟨(hpool₂.addProofIfNoConflict hnd hnz h₂).1, fun h' => absurd h' Bool.false_ne_true⟩

end Run

/-- One call on the pool, with what its callers guarantee: a proof whose
stakes are pairwise different outpoints and whose id is not zero, and a walk
of the by-proof-id index in an order the index may have. -/
inductive Step : ProofPool → ProofPool → Prop
  | addProofIfNoConflict {pp pp' : ProofPool} {proof : ProofRef} {status : AddProofStatus}
      {cs : ConflictingProofSet} (hnd : proof.utxos.Nodup) (hnz : proof.proofid ≠ ProofId.ZERO)
      (h : pp.addProofIfNoConflict proof = some (status, cs, pp')) : Step pp pp'
  | addProofIfPreferred {pp pp' : ProofPool} {proof : ProofRef} {status : AddProofStatus}
      {cs : ConflictingProofSet} (hnd : proof.utxos.Nodup) (hnz : proof.proofid ≠ ProofId.ZERO)
      (h : pp.addProofIfPreferred proof = some (status, cs, pp')) : Step pp pp'
  | removeProof (pp : ProofPool) (proofid : ProofId) : Step pp (pp.removeProof proofid).2
  | countProofs {pp : ProofPool} {byProofId : List ProofPoolEntry}
      (h : ByProofIdOrder pp.pool byProofId) : Step pp (pp.countProofs byProofId).2

/-- The pools a run of calls reaches from a new one. -/
def Reachable (pp : ProofPool) : Prop := Relation.ReflTransGen Step empty pp

theorem Inv.empty : Inv empty where
  pool := ⟨List.nodup_nil, (fun _ he => by cases he), (fun _ he => by cases he),
    (fun _ he => by cases he)⟩
  cache _ := by simp [proofIds, ProofPool.empty]

theorem Inv.step {pp pp' : ProofPool} (h : Inv pp) (hstep : Step pp pp') : Inv pp' := by
  cases hstep with
  | addProofIfNoConflict hnd hnz hadd => exact h.addProofIfNoConflict hnd hnz hadd
  | addProofIfPreferred hnd hnz hadd => exact h.addProofIfPreferred hnd hnz hadd
  | removeProof proofid => exact h.removeProof proofid
  | countProofs hord => exact (h.countProofs hord).2

/-- Every reachable pool keeps the invariant, by induction on the run. -/
theorem Reachable.inv {pp : ProofPool} (h : Reachable pp) : Inv pp := by
  induction h with
  | refl => exact Inv.empty
  | tail _ hstep ih => exact ih.step hstep

/-! ## The pool over every run -/

/-- Over every run of calls on proofs whose stakes are pairwise different
outpoints and whose ids are not zero: an outpoint is mapped to at most one
entry; a proof in the pool has an entry for each of its stakes; a call of
`addProofIfNoConflict` on a proof of pairwise different outpoints returns,
leaves the pool as it was when it rejects or finds a duplicate, and otherwise
reports exactly the proofs of the pool that share an outpoint with the
candidate; and `countProofs`, from its cache or by a walk of the by-proof-id
index in any order the index may have, is the number of proofs in the pool. -/
theorem proofPool_invariant {pp : ProofPool} (h : Reachable pp) :
    (pp.pool.map (·.getUTXO)).Nodup ∧
      (∀ e ∈ pp.pool, ∀ s ∈ e.proof.proof.stakes,
        ∃ e' ∈ pp.pool, e'.getUTXO = s.stake.utxo ∧ e'.proof = e.proof) ∧
      (∀ proof : ProofRef, proof.utxos.Nodup →
        ∃ status cs pp', pp.addProofIfNoConflict proof = some (status, cs, pp') ∧
          (status = .REJECTED ∨ status = .DUPLICATED → pp' = pp) ∧
          (status ≠ .DUPLICATED →
            ∀ q, q ∈ cs.toList ↔ ∃ e ∈ pp.pool, e.proof = q ∧ e.getUTXO ∈ proof.utxos)) ∧
      ∀ byProofId, ByProofIdOrder pp.pool byProofId →
        (pp.countProofs byProofId).1 = (proofIds pp.pool).card := by
  have hinv := h.inv
  refine ⟨hinv.pool.utxo_nodup, hinv.pool.whole, fun proof hnd => ?_,
    fun byProofId hord => (hinv.countProofs hord).1⟩
  by_cases hmem : proof.proofid ∈ pp.pool.map (·.proof.proofid)
  · -- a duplicate: nothing changes and nothing is reported
    refine ⟨.DUPLICATED, .leaf, pp, addProofIfNoConflict_of_mem hmem, fun _ => rfl, ?_⟩
    intro hne
    exact absurd rfl hne
  · obtain ⟨cs, hcs, ⟨-, hrej⟩ | ⟨-, N, -, -, hsucc⟩⟩ := addProofIfNoConflict_of_not_mem hinv.pool hnd hmem
    · exact ⟨.REJECTED, cs, pp, hrej, fun _ => rfl, fun _ => hcs.mem⟩
    · refine ⟨.SUCCEED, cs, _, hsucc, ?_, fun _ => hcs.mem⟩
      rintro (h | h) <;> cases h

/-- A stake of the outpoint `n` of the null transaction, its other fields
zero. -/
def stakeAt (n : UInt32) : SignedStake := ⟨⟨⟨⟨0⟩, n⟩, ⟨0⟩, 0, [], StakeId.ZERO⟩, []⟩

/-- A proof with the given master, sequence number, score and staked outpoints,
whose id is zero but for its last byte `k`. -/
def proofOf (master : List UInt8) (sequence : UInt64) (score : UInt32) (utxos : List UInt32)
    (k : UInt8) : ProofRef :=
  ⟨⟨sequence, 0, master, utxos.map stakeAt, [], []⟩, ⟨List.replicate 31 0 ++ [k], rfl⟩, score⟩

/-- The pool after two proofs on different outpoints were added to a new one:
`proofOf [2] 0 20 [1] 1`, then `proofOf [1] 5 10 [2] 2`. -/
def twoProofs : ProofPool :=
  (((empty.addProofIfNoConflict (proofOf [2] 0 20 [1] 1)).bind fun r =>
    r.2.2.addProofIfNoConflict (proofOf [1] 5 10 [2] 2)).map (·.2.2)).getD empty

theorem reachable_twoProofs : Reachable twoProofs := by
  obtain ⟨⟨s₁, cs₁, pp₁⟩, h₁⟩ := Option.isSome_iff_exists.mp
    (by decide : (empty.addProofIfNoConflict (proofOf [2] 0 20 [1] 1)).isSome)
  obtain ⟨⟨s₂, cs₂, pp₂⟩, h₂⟩ := Option.isSome_iff_exists.mp
    (by decide : ((empty.addProofIfNoConflict (proofOf [2] 0 20 [1] 1)).bind fun r =>
      r.2.2.addProofIfNoConflict (proofOf [1] 5 10 [2] 2)).isSome)
  have hpp : twoProofs = pp₂ := by simp only [twoProofs, h₂]; rfl
  rw [h₁, Option.bind_some] at h₂
  exact hpp ▸ .tail (.single (.addProofIfNoConflict (by decide) (by decide) h₁))
    (.addProofIfNoConflict (by decide) (by decide) h₂)

/-- The pool after two proofs on different outpoints were added to a new one. -/
theorem proofPool_invariant_twoProofs :
    let pp := (((empty.addProofIfNoConflict (proofOf [2] 0 20 [1] 1)).bind fun r =>
      r.2.2.addProofIfNoConflict (proofOf [1] 5 10 [2] 2)).map (·.2.2)).getD empty
    pp.pool.length = 2 ∧ Reachable pp ∧ ((pp.pool.map (·.getUTXO)).Nodup ∧
      (∀ e ∈ pp.pool, ∀ s ∈ e.proof.proof.stakes,
        ∃ e' ∈ pp.pool, e'.getUTXO = s.stake.utxo ∧ e'.proof = e.proof) ∧
      (∀ proof : ProofRef, proof.utxos.Nodup →
        ∃ status cs pp', pp.addProofIfNoConflict proof = some (status, cs, pp') ∧
          (status = .REJECTED ∨ status = .DUPLICATED → pp' = pp) ∧
          (status ≠ .DUPLICATED →
            ∀ q, q ∈ cs.toList ↔ ∃ e ∈ pp.pool, e.proof = q ∧ e.getUTXO ∈ proof.utxos)) ∧
      ∀ byProofId, ByProofIdOrder pp.pool byProofId →
        (pp.countProofs byProofId).1 = (proofIds pp.pool).card) := by
  intro pp
  have hreach : Reachable pp := reachable_twoProofs
  exact ⟨by decide, hreach, proofPool_invariant hreach⟩

/-! ## Preference -/

/-- `addProofIfPreferred` never fails an `assert`: a rejection leaves a
nonempty set, and once the conflicting proofs are gone the candidate goes in. -/
theorem addProofIfPreferred_isSome {pp : ProofPool} {proof : ProofRef} (hinv : Inv pp)
    (hnd : proof.utxos.Nodup) :
    ∃ status cs pp', pp.addProofIfPreferred proof = some (status, cs, pp') := by
  by_cases hmem : proof.proofid ∈ pp.pool.map (·.proof.proofid)
  · refine ⟨.DUPLICATED, .leaf, pp, ?_⟩
    simp only [addProofIfPreferred, addProofIfNoConflict_of_mem hmem, Option.bind_eq_bind]
    rfl
  obtain ⟨cs, hcs, ⟨hconf, hrej⟩ | ⟨-, N, -, -, hsucc⟩⟩ := addProofIfNoConflict_of_not_mem hinv.pool hnd hmem
  · -- a rejection: the set is not empty
    obtain ⟨best, -, -, hb⟩ := hcs.exists_begin hconf
    cases hc : ConflictingProofComparator best proof with
    | true => exact ⟨.REJECTED, cs, pp, addProofIfPreferred_of_loses hrej hb hc⟩
    | false =>
      obtain ⟨cs₂, pp₂, h₂⟩ := addProofIfNoConflict_after_removal hinv.pool hnd hmem hcs
      exact ⟨.SUCCEED, cs, _, addProofIfPreferred_of_beats hrej hb hc h₂⟩
  · refine ⟨.SUCCEED, cs, { pp with pool := pp.pool ++ N, cacheClean := false }, ?_⟩
    simp only [addProofIfPreferred, hsucc, Option.bind_eq_bind]
    rfl

/-- The candidate `proofOf [1] 1 30 [1, 2] 3` stakes the outpoints of both
proofs of `twoProofs`: the call returns. -/
theorem addProofIfPreferred_isSome_twoProofs :
    ∃ status cs pp', twoProofs.addProofIfPreferred (proofOf [1] 1 30 [1, 2] 3) = some (status, cs, pp') :=
  addProofIfPreferred_isSome reachable_twoProofs.inv (by decide)

/-- When the comparator orders the conflicting proofs and the candidate
strictly and transitively, `addProofIfPreferred` adds a new proof that
conflicts with the pool exactly when the candidate is preferred to every
conflicting proof. -/
theorem addProofIfPreferred_eq_of_strictTotalOn {pp : ProofPool} {proof : ProofRef} (hinv : Inv pp)
    (hnd : proof.utxos.Nodup) (hnew : proof.proofid ∉ pp.pool.map (·.proof.proofid))
    (hconf : ∃ e ∈ pp.pool, e.getUTXO ∈ proof.utxos)
    (hord : SearchTree.Tree.StrictTotalOn ConflictingProofComparator (proof :: conflictsOf pp.pool proof)) :
    (∃ cs pp', pp.addProofIfPreferred proof = some (.SUCCEED, cs, pp')) ↔
      ∀ q ∈ conflictsOf pp.pool proof, ConflictingProofComparator proof q = true := by
  obtain ⟨cs, hcs, ⟨-, hrej⟩ | ⟨hfree, -⟩⟩ := addProofIfNoConflict_of_not_mem hinv.pool hnd hnew
  swap
  · obtain ⟨e, he, hu⟩ := hconf
    exact absurd hu (hfree e he)
  have hmem : ∀ q, q ∈ cs.toList ↔ q ∈ conflictsOf pp.pool proof :=
    fun q => (hcs.mem q).trans mem_conflictsOf.symm
  have hsorted := hcs.sorted (hord.mono _ fun x hx => List.mem_cons_of_mem _ hx)
  -- the first conflicting proof, the one the candidate is compared with
  obtain ⟨best, rest, hcs', hb⟩ := hcs.exists_begin hconf
  have hbest : best ∈ conflictsOf pp.pool proof := (hmem best).mp (by simp [hcs'])
  have hid : proof.proofid ≠ best.proofid := by
    obtain ⟨e, he, rfl, -⟩ := mem_conflictsOf.mp hbest
    exact fun h => hnew (h ▸ List.mem_map_of_mem he)
  constructor
  · rintro ⟨cs₁, pp₁, hadd⟩
    rcases addProofIfPreferred_cases hadd with h₁ | ⟨pp₂, best', -, -, h₁, hb', hc, -, -, -⟩
    · rw [hrej] at h₁
      cases (Option.some.inj h₁)
    · rw [hrej] at h₁
      simp only [Option.some.injEq, Prod.mk.injEq, true_and] at h₁
      obtain ⟨rfl, -⟩ := h₁
      rw [hb] at hb'
      cases Option.some.inj hb'
      -- the candidate beats the first conflicting proof, and through it all the others
      have hpb : ConflictingProofComparator proof best = true :=
        (ConflictingProofComparator_total hid).resolve_right (by simp [hc])
      intro q hq
      rcases List.mem_cons.mp (hcs' ▸ (hmem q).mpr hq) with rfl | hq'
      · exact hpb
      · have hsorted' : (best :: rest).Pairwise (ConflictingProofComparator · ·) := hcs' ▸ hsorted
        have hbq : ConflictingProofComparator best q = true := List.rel_of_pairwise_cons hsorted' hq'
        exact hord.trans proof (List.mem_cons_self ..) best (List.mem_cons_of_mem _ hbest) q
          (List.mem_cons_of_mem _ hq) hpb hbq
  · intro hall
    have hc : ConflictingProofComparator best proof = false :=
      ConflictingProofComparator_asymm (hall best hbest)
    obtain ⟨cs₂, pp₂, h₂⟩ := addProofIfNoConflict_after_removal hinv.pool hnd hnew hcs
    exact ⟨cs, _, addProofIfPreferred_of_beats hrej hb hc h₂⟩

/-- A candidate of a third master with the score `30`, staking the outpoints of
both proofs of `twoProofs`: the comparator orders the three by score, and the
candidate, preferred to both, replaces them. -/
theorem addProofIfPreferred_eq_of_strictTotalOn_twoProofs :
    (∃ cs pp', twoProofs.addProofIfPreferred (proofOf [3] 0 30 [1, 2] 3) = some (.SUCCEED, cs, pp')) ∧
      ∀ q ∈ conflictsOf twoProofs.pool (proofOf [3] 0 30 [1, 2] 3),
        ConflictingProofComparator (proofOf [3] 0 30 [1, 2] 3) q = true := by
  have hconfs : conflictsOf twoProofs.pool (proofOf [3] 0 30 [1, 2] 3) =
      [proofOf [2] 0 20 [1] 1, proofOf [1] 5 10 [2] 2] := rfl
  have hord : SearchTree.Tree.StrictTotalOn ConflictingProofComparator
      (proofOf [3] 0 30 [1, 2] 3 :: conflictsOf twoProofs.pool (proofOf [3] 0 30 [1, 2] 3)) := by
    rw [hconfs]
    refine ⟨by decide, by decide, ?_⟩
    intro x hx y hy _
    simp only [List.mem_cons, List.not_mem_nil, or_false] at hx hy
    rcases hx with rfl | rfl | rfl <;> rcases hy with rfl | rfl | rfl <;> first | decide | contradiction
  have hall : ∀ q ∈ conflictsOf twoProofs.pool (proofOf [3] 0 30 [1, 2] 3),
      ConflictingProofComparator (proofOf [3] 0 30 [1, 2] 3) q = true := by
    rw [hconfs]
    decide
  have h := addProofIfPreferred_eq_of_strictTotalOn reachable_twoProofs.inv (by decide) (by decide)
    (by decide) hord
  exact ⟨h.mpr hall, hall⟩

/-! ## A cycle of the comparator -/

/-- Three proofs of different ids that the comparator orders in a cycle: `P`
and `B` share a master and `B` has the higher sequence number, `A` has another
master and a score between theirs. From a pool holding `A` and `B`,
`addProofIfPreferred P` compares `P` with `A` alone, the first element of the
set, and replaces both, though `B` is preferred to `P`. -/
theorem addProofIfPreferred_replaces_preferred :
    ConflictingProofComparator (proofOf [1] 1 30 [1, 2] 3) (proofOf [2] 0 20 [1] 1) = true ∧
      ConflictingProofComparator (proofOf [2] 0 20 [1] 1) (proofOf [1] 5 10 [2] 2) = true ∧
      ConflictingProofComparator (proofOf [1] 5 10 [2] 2) (proofOf [1] 1 30 [1, 2] 3) = true ∧
      ((((empty.addProofIfNoConflict (proofOf [2] 0 20 [1] 1)).bind fun r =>
          r.2.2.addProofIfNoConflict (proofOf [1] 5 10 [2] 2)).bind fun r =>
            r.2.2.addProofIfPreferred (proofOf [1] 1 30 [1, 2] 3)).map
        fun r => (r.1, r.2.2.pool.map (·.proof.proofid))) =
        some (.SUCCEED, [(proofOf [1] 1 30 [1, 2] 3).proofid, (proofOf [1] 1 30 [1, 2] 3).proofid]) := by
  decide

end ProofPool

end Avalanche

end BitcoinAbc
