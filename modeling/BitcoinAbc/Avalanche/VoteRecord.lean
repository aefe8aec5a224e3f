import Mathlib
import BitcoinAbc.Script.SigEncoding

/-!
# Vote records (avalanche/voterecord.cpp)

A `VoteRecord` keeps the last eight votes a node received about one item as
two 8-bit shift registers, `votes` (the vote was yes) and `consider` (the vote
counts), and packs the item's acceptance and its confidence into one
`uint16_t`: the low bit is the acceptance, the rest the confidence. Each
`registerVote` first filters out a node that already voted in the current
quorum, then shifts the vote in; when seven of the eight recorded votes agree,
the round is conclusive and confirms or flips the acceptance.

The abstract machine `VoteState` says what the record is for: a window of the
last eight votes, most recent first, an acceptance and a confidence counted in
`Nat`; a call either is refused by the quorum filter or votes (`VoteState.step`).
`VoteRecord.registerVote_refines` shows that every call follows it, as long as
the confidence stays below `2^15`, where the packed counter would wrap;
`VoteRecord.window_run` that after any run the registers hold the last eight
counted votes; and `VoteRecord.registerVote_spec` reads what each call of a run
does to the registers, the acceptance, the confidence and the result off the
abstract step.
-/

namespace BitcoinAbc

namespace Avalanche

/-- `AVALANCHE_FINALIZATION_SCORE`. -/
def AVALANCHE_FINALIZATION_SCORE : Nat := 128

/-- `NodeId`, an `int64_t`. -/
abbrev NodeId := Int64

/-- `VoteRecord`, its atomic `inflight` counter read as a plain one. -/
structure VoteRecord where
  confidence : UInt16
  votes : UInt8
  consider : UInt8
  inflight : UInt8
  seed : UInt32
  successfulVotes : UInt32
  nodeFilter : Vector UInt16 8

namespace VoteRecord

/-- `VoteRecord(accepted)`, with the seed the record was built with. -/
def init (accepted : Bool) (seed : UInt32) : VoteRecord :=
  ⟨if accepted then 1 else 0, 0, 0, 0, seed, 0, Vector.replicate 8 0⟩

def isAccepted (r : VoteRecord) : Bool := r.confidence &&& 0x01 != 0

def getConfidence (r : VoteRecord) : UInt16 := r.confidence >>> 1

/-- `clearInflightRequest()`, with its default count of one. -/
def clearInflightRequest (r : VoteRecord) : VoteRecord := { r with inflight := r.inflight - 1 }

/-- The 16-bit hash `addNodeToQuorum` keeps of a node: an MMIX linear
congruential step and a Fibonacci hash of the node xor the seed, summed. -/
def nodeHash (seed : UInt32) (nodeid : NodeId) : UInt16 :=
  let r1 : UInt64 := 6364136223846793005 * nodeid.toUInt64 + 1442695040888963407
  let r2 : UInt64 := 11400714819323198485 * (nodeid.toUInt64 ^^^ seed.toUInt64)
  ((r1 + r2) >>> 48).toUInt16

/-- `addNodeToQuorum(nodeid)`: whether the node was added, and the record. A
node whose hash is among the other seven slots of the filter is refused. -/
def addNodeToQuorum (r : VoteRecord) (nodeid : NodeId) : Bool × VoteRecord :=
  let h := nodeHash r.seed nodeid
  let slot (i : Nat) : Fin 8 := ⟨(r.successfulVotes.toNat + i) % 8, Nat.mod_lt _ (by decide)⟩
  if (List.range' 1 7).any fun i => r.nodeFilter[slot i] == h then (false, r)
  else (true, { r with
    nodeFilter := r.nodeFilter.set (slot 0).val h (slot 0).isLt,
    successfulVotes := r.successfulVotes + 1 })

/-- `registerVote(nodeid, error)`: whether the acceptance or finalization
changed, and the record. An error of 0 is a yes; an error with
`int32_t(error) >= 0` is a no; any other is not considered. -/
def registerVote (r : VoteRecord) (nodeid : NodeId) (error : UInt32) : Bool × VoteRecord :=
  let r := r.clearInflightRequest
  let (added, r) := r.addNodeToQuorum nodeid
  if !added then (false, r)
  else
    let votes : UInt8 := (r.votes <<< 1) ||| (if error = 0 then 1 else 0)
    let consider : UInt8 := (r.consider <<< 1) ||| (if 0 ≤ error.toInt32 then 1 else 0)
    let r := { r with votes, consider }
    let yes := Script.countBits (votes &&& consider &&& 0xff).toNat > 6
    if !yes && !(Script.countBits (~~~votes &&& consider &&& 0xff).toNat > 6) then
      -- The round is inconclusive.
      (false, r)
    else if r.isAccepted == yes then
      -- The round agrees with the previous ones: more confidence.
      let r := { r with confidence := r.confidence + 2 }
      (r.getConfidence.toNat == AVALANCHE_FINALIZATION_SCORE, r)
    else
      -- The round changed the state: the confidence starts over.
      (true, { r with confidence := if yes then 1 else 0 })

end VoteRecord

/-! ## What the record is for -/

/-- A vote as the record keeps it. -/
inductive Vote where
  | yes
  | no
  | neutral
  deriving DecidableEq, Repr

/-- The vote `registerVote` records for `error`. -/
def Vote.ofError (error : UInt32) : Vote :=
  if error = 0 then .yes else if 0 ≤ error.toInt32 then .no else .neutral

/-- The vote a pair of register bits records: a considered yes, a considered no,
or a vote that does not count. -/
def Vote.ofBits (v c : Bool) : Vote := if c then (if v then .yes else .no) else .neutral

/-- The eight votes the registers hold, most recent first. -/
def window (votes consider : UInt8) : List Vote :=
  (List.range 8).map fun i => Vote.ofBits (votes.toNat.testBit i) (consider.toNat.testBit i)

/-- The abstract vote record: the last eight votes, most recent first, the
acceptance and the confidence. -/
@[ext]
structure VoteState where
  window : List Vote
  length_window : window.length = 8
  accepted : Bool
  confidence : Nat

/-- The outcome of a window: yes when seven of its votes are yes, no when seven
are no, none otherwise. -/
def outcome (w : List Vote) : Option Bool :=
  if 7 ≤ w.count .yes then some true else if 7 ≤ w.count .no then some false else none

/-- A counted vote: it enters the window, and a conclusive round confirms the
acceptance, one more confidence, or flips it, confidence zero. The result says
whether the acceptance flipped or the confidence reached the finalization
score. -/
def VoteState.vote (s : VoteState) (v : Vote) : Bool × VoteState :=
  let w := v :: s.window.take 7
  have hw : w.length = 8 := by simp [w, s.length_window]
  match outcome w with
  | none => (false, ⟨w, hw, s.accepted, s.confidence⟩)
  | some o =>
    if s.accepted = o then
      (decide (s.confidence + 1 = AVALANCHE_FINALIZATION_SCORE), ⟨w, hw, s.accepted, s.confidence + 1⟩)
    else (true, ⟨w, hw, o, 0⟩)

/-- One call as the abstract machine sees it: a vote the quorum filter refused
changes nothing and returns false. -/
def VoteState.step (s : VoteState) (counted : Bool) (v : Vote) : Bool × VoteState :=
  if counted then s.vote v else (false, s)

/-- The abstract state a record stands for. -/
def VoteRecord.abs (r : VoteRecord) : VoteState :=
  ⟨window r.votes r.consider, by simp [window], r.isAccepted, r.getConfidence.toNat⟩

/-! ## The abstract machine -/

namespace VoteState

/-- A round's outcome is inconclusive, the acceptance, or its negation. -/
theorem outcome_cases (o : Option Bool) (a : Bool) : o = none ∨ o = some a ∨ o = some !a := by
  rcases o with _ | o
  · exact Or.inl rfl
  · cases o <;> cases a <;> simp

/-- A round is conclusive when seven of its eight votes are yes or seven are no. -/
theorem outcome_isSome_iff (w : List Vote) :
    (outcome w).isSome ↔ 7 ≤ w.count .yes ∨ 7 ≤ w.count .no := by
  unfold outcome
  by_cases hy : 7 ≤ w.count .yes
  · simp [hy]
  · by_cases hn : 7 ≤ w.count .no
    · simp [hy, hn]
    · simp [hy, hn]

variable (s : VoteState) (v : Vote)

theorem vote_window : (s.vote v).2.window = v :: s.window.take 7 := by
  unfold vote
  dsimp only
  split
  · rfl
  · split <;> rfl

/-- An inconclusive round keeps the acceptance and the confidence. -/
theorem vote_of_none (h : outcome (v :: s.window.take 7) = none) :
    (s.vote v).1 = false ∧ (s.vote v).2.accepted = s.accepted ∧
      (s.vote v).2.confidence = s.confidence := by
  unfold vote
  simp only [h, and_self]

/-- A conclusive round that agrees with the acceptance adds one to the
confidence. -/
theorem vote_of_agree (h : outcome (v :: s.window.take 7) = some s.accepted) :
    (s.vote v).1 = decide (s.confidence + 1 = AVALANCHE_FINALIZATION_SCORE) ∧
      (s.vote v).2.accepted = s.accepted ∧ (s.vote v).2.confidence = s.confidence + 1 := by
  unfold vote
  simp only [h, ↓reduceIte, and_self]

/-- A conclusive round against the acceptance flips it and the confidence
starts over. -/
theorem vote_of_flip (h : outcome (v :: s.window.take 7) = some !s.accepted) :
    (s.vote v).1 = true ∧ (s.vote v).2.accepted = !s.accepted ∧ (s.vote v).2.confidence = 0 := by
  unfold vote
  simp only [h, Bool.eq_not_self, ↓reduceIte, and_self]

/-- The acceptance and the confidence change only on a counted vote that ends a
conclusive round. -/
theorem step_changed {b : Bool}
    (h : ((s.step b v).2.accepted, (s.step b v).2.confidence) ≠ (s.accepted, s.confidence)) :
    b = true ∧ (outcome (v :: s.window.take 7)).isSome := by
  cases b
  · exact absurd rfl h
  · refine ⟨rfl, ?_⟩
    rcases outcome_cases (outcome (v :: s.window.take 7)) s.accepted with hn | ha | hf
    · obtain ⟨-, h2, h3⟩ := s.vote_of_none v hn
      simp only [step, ↓reduceIte, h2, h3, ne_eq, not_true_eq_false] at h
    · rw [ha]
      rfl
    · rw [hf]
      rfl

/-- The result reports a flip of the acceptance, or the confidence reaching the
finalization score. -/
theorem step_fst_iff (b : Bool) :
    (s.step b v).1 = true ↔ (s.step b v).2.accepted ≠ s.accepted ∨
      (s.confidence ≠ AVALANCHE_FINALIZATION_SCORE ∧
        (s.step b v).2.confidence = AVALANCHE_FINALIZATION_SCORE) := by
  cases b
  · simp [step]
  · simp only [step, ↓reduceIte]
    rcases outcome_cases (outcome (v :: s.window.take 7)) s.accepted with hn | ha | hf
    · obtain ⟨h1, h2, h3⟩ := s.vote_of_none v hn
      simp [h1, h2, h3]
    · obtain ⟨h1, h2, h3⟩ := s.vote_of_agree v ha
      rw [h1, h2, h3]
      simp only [decide_eq_true_eq, ne_eq, not_true_eq_false, false_or]
      omega
    · obtain ⟨h1, h2, h3⟩ := s.vote_of_flip v hf
      simp [h1, h2, h3]

end VoteState

/-! ## The registers hold the window -/

section Registers

/-- `countBits` of a value below `2^k` counts its set bits below `k`. -/
theorem countBits_eq_countP : ∀ (k n : Nat), n < 2 ^ k →
    Script.countBits n = (List.range k).countP n.testBit
  | 0, n, h => by
    have hn : n = 0 := by simpa using h
    subst hn
    rfl
  | k + 1, n, h => by
    rw [Script.countBits_eq]
    split
    · rename_i hn
      subst hn
      exact (List.countP_eq_zero.mpr fun i _ => by simp).symm
    · rw [countBits_eq_countP k (n / 2) (by rw [Nat.pow_succ] at h; omega), List.range_succ_eq_map,
        List.countP_cons, List.countP_map]
      have hbits : (n.testBit ∘ Nat.succ) = (n / 2).testBit := funext fun i => Nat.testBit_succ n i
      rw [hbits, Nat.testBit_zero]
      rcases Nat.mod_two_eq_zero_or_one n with h2 | h2
      · simp [h2]
      · simp [h2]
        omega

/-- Bit `j` of a register after `b` is shifted in. -/
theorem testBit_shiftIn (v : UInt8) (b : Bool) {j : Nat} (hj : j < 8) :
    ((v <<< 1) ||| (if b then 1 else 0)).toNat.testBit j =
      if j = 0 then b else v.toNat.testBit (j - 1) := by
  rw [UInt8.toNat_or, UInt8.toNat_shiftLeft, Nat.testBit_or, Nat.testBit_mod_two_pow,
    Nat.testBit_shiftLeft]
  cases b <;> rcases j with _ | j <;> simp [hj, Nat.testBit_succ]

/-- Shifting a vote into both registers puts it at the front of the window and
drops the oldest. -/
theorem window_shiftIn (v c : UInt8) (b d : Bool) :
    window ((v <<< 1) ||| (if b then 1 else 0)) ((c <<< 1) ||| (if d then 1 else 0)) =
      Vote.ofBits b d :: (window v c).take 7 := by
  have hold : (window v c).take 7 =
      (List.range 7).map fun i => Vote.ofBits (v.toNat.testBit i) (c.toNat.testBit i) := by
    rw [window, ← List.map_take, List.take_range]
    rfl
  rw [hold, window, List.range_succ_eq_map, List.map_cons, List.map_map,
    testBit_shiftIn v b (by decide), testBit_shiftIn c d (by decide)]
  simp only [↓reduceIte, List.cons.injEq, true_and]
  refine List.map_congr_left fun i hi => ?_
  have hi : i < 7 := List.mem_range.mp hi
  simp only [Function.comp, testBit_shiftIn v b (show i + 1 < 8 by omega),
    testBit_shiftIn c d (show i + 1 < 8 by omega), Nat.succ_ne_zero, ↓reduceIte, Nat.add_sub_cancel]

theorem testBit_not (v : UInt8) {i : Nat} (hi : i < 8) :
    (~~~v).toNat.testBit i = !v.toNat.testBit i := by
  have h := BitVec.getLsbD_not (x := v.toBitVec) (i := i)
  simp only [BitVec.getLsbD, UInt8.toNat_toBitVec] at h
  rw [← UInt8.toNat_toBitVec, UInt8.toBitVec_not, h]
  simp [hi]

theorem testBit_0xff {i : Nat} (hi : i < 8) : (UInt8.toNat 0xff).testBit i = true := by
  rw [show UInt8.toNat 0xff = 2 ^ 8 - 1 from rfl, Nat.testBit_two_pow_sub_one]
  simpa using hi

/-- The yes votes of the window are the bits `votes & consider` counts. -/
theorem count_yes_window (v c : UInt8) :
    (window v c).count .yes = Script.countBits (v &&& c &&& 0xff).toNat := by
  rw [countBits_eq_countP 8 _ (UInt8.toNat_lt _), window, List.count_eq_countP, List.countP_map]
  refine List.countP_congr fun i hi => ?_
  have hi : i < 8 := List.mem_range.mp hi
  simp only [Function.comp, UInt8.toNat_and, Nat.testBit_and, testBit_0xff hi, Bool.and_true]
  cases v.toNat.testBit i <;> cases c.toNat.testBit i <;> decide

/-- The no votes of the window are the bits `~votes & consider` counts. -/
theorem count_no_window (v c : UInt8) :
    (window v c).count .no = Script.countBits (~~~v &&& c &&& 0xff).toNat := by
  rw [countBits_eq_countP 8 _ (UInt8.toNat_lt _), window, List.count_eq_countP, List.countP_map]
  refine List.countP_congr fun i hi => ?_
  have hi : i < 8 := List.mem_range.mp hi
  simp only [Function.comp, UInt8.toNat_and, Nat.testBit_and, testBit_0xff hi, Bool.and_true,
    testBit_not v hi]
  cases v.toNat.testBit i <;> cases c.toNat.testBit i <;> decide

/-- The round's outcome, as `registerVote` computes it from the registers. -/
theorem outcome_window (v c : UInt8) :
    outcome (window v c) =
      if Script.countBits (v &&& c &&& 0xff).toNat > 6 then some true
      else if Script.countBits (~~~v &&& c &&& 0xff).toNat > 6 then some false else none := by
  rw [outcome, count_yes_window, count_no_window]
  rfl

/-- The bits a vote is shifted in as. -/
theorem ofBits_ofError (error : UInt32) :
    Vote.ofBits (error = 0) (0 ≤ error.toInt32) = Vote.ofError error := by
  by_cases h0 : error = 0
  · subst h0
    rfl
  · by_cases h1 : 0 ≤ error.toInt32
    · simp [Vote.ofBits, Vote.ofError, h0, h1]
    · simp [Vote.ofBits, Vote.ofError, h0, h1]

end Registers

/-! ## The packed acceptance and confidence -/

section Confidence

theorem toNat_shiftRight_one (c : UInt16) : (c >>> 1).toNat = c.toNat / 2 := by
  simp [UInt16.toNat_shiftRight, Nat.shiftRight_eq_div_pow]

theorem and_one_ne_zero (c : UInt16) : (c &&& 0x01 != 0) = decide (c.toNat % 2 = 1) := by
  have h : (c &&& 0x01).toNat = c.toNat % 2 := by
    rw [UInt16.toNat_and, show UInt16.toNat 0x01 = 1 from rfl, Nat.and_one_is_mod]
  rcases Nat.mod_two_eq_zero_or_one c.toNat with h2 | h2
  · have h0 : c &&& 0x01 = 0 := UInt16.toNat_inj.mp (by rw [h, h2]; rfl)
    simp [h0, h2]
  · have h0 : c &&& 0x01 ≠ 0 := fun h0 => by
      rw [h0] at h
      simp at h
      omega
    simp [h0, h2]

/-- `confidence += 2` adds one to the confidence, while it stays below `2^15`. -/
theorem getConfidence_add_two (c : UInt16) (h : (c >>> 1).toNat + 1 < 2 ^ 15) :
    ((c + 2) >>> 1).toNat = (c >>> 1).toNat + 1 := by
  rw [toNat_shiftRight_one] at h ⊢
  rw [toNat_shiftRight_one, UInt16.toNat_add, show UInt16.toNat 2 = 2 from rfl]
  omega

/-- `confidence += 2` keeps the acceptance bit. -/
theorem isAccepted_add_two (c : UInt16) : ((c + 2) &&& 0x01 != 0) = (c &&& 0x01 != 0) := by
  have hbit : (c.toNat + 2) % 2 ^ 16 % 2 = c.toNat % 2 := by omega
  rw [and_one_ne_zero, and_one_ne_zero, UInt16.toNat_add, show UInt16.toNat 2 = 2 from rfl, hbit]

/-- `confidence = yes` sets the acceptance to `yes` and the confidence to 0. -/
theorem setResult (yes : Prop) [Decidable yes] :
    ((if yes then 1 else 0 : UInt16) &&& 0x01 != 0) = decide yes ∧
      (if yes then 1 else 0 : UInt16) >>> 1 = 0 := by
  by_cases h : yes
  · simp only [h, ↓reduceIte, decide_true]
    exact ⟨by decide, by decide⟩
  · simp only [h, ↓reduceIte, decide_false]
    exact ⟨by decide, by decide⟩

end Confidence

/-! ## One call follows the abstract machine -/

/-- The vote of a call enters the window. -/
theorem window_registerVote (v c : UInt8) (error : UInt32) :
    window ((v <<< 1) ||| (if error = 0 then 1 else 0))
        ((c <<< 1) ||| (if 0 ≤ error.toInt32 then 1 else 0)) =
      Vote.ofError error :: (window v c).take 7 := by
  have h := window_shiftIn v c (decide (error = 0)) (decide (0 ≤ error.toInt32))
  simp only [decide_eq_true_eq] at h
  rw [h, ofBits_ofError]

/-- The test `registerVote` makes for an inconclusive round, and its `yes`,
read off the round's outcome. -/
theorem round_of_outcome {ny nn : Nat} {o : Option Bool}
    (ho : o = if ny > 6 then some true else if nn > 6 then some false else none) :
    (!decide (ny > 6) && !decide (nn > 6)) = o.isNone ∧ ∀ b, o = some b → decide (ny > 6) = b := by
  by_cases hy : ny > 6
  · subst ho
    simp [hy]
  · by_cases hn : nn > 6
    · subst ho
      simp [hy, hn]
    · subst ho
      simp [hy, hn]

namespace VoteRecord

/-- Whether `registerVote` counts the node's vote: the quorum filter admits
the node. -/
def counted (r : VoteRecord) (nodeid : NodeId) : Bool :=
  (r.clearInflightRequest.addNodeToQuorum nodeid).1

/-- The quorum filter touches neither the registers nor the confidence. -/
theorem addNodeToQuorum_keeps (r : VoteRecord) (nodeid : NodeId) :
    (r.addNodeToQuorum nodeid).2.confidence = r.confidence ∧
      (r.addNodeToQuorum nodeid).2.votes = r.votes ∧
      (r.addNodeToQuorum nodeid).2.consider = r.consider := by
  unfold addNodeToQuorum
  dsimp only
  split
  · exact ⟨rfl, rfl, rfl⟩
  · exact ⟨rfl, rfl, rfl⟩

variable (r : VoteRecord) (nodeid : NodeId) (error : UInt32)

/-- A refused node changes nothing the abstract record sees. -/
theorem registerVote_refused (h : r.counted nodeid = false) :
    (r.registerVote nodeid error).1 = false ∧ (r.registerVote nodeid error).2.abs = r.abs := by
  obtain ⟨hc, hv, hk⟩ := addNodeToQuorum_keeps r.clearInflightRequest nodeid
  unfold counted at h
  rcases hq : r.clearInflightRequest.addNodeToQuorum nodeid with ⟨added, r₁⟩
  rw [hq] at hc hv hk h
  subst h
  dsimp only [clearInflightRequest] at hc hv hk
  simp only [registerVote, hq, Bool.not_false, ↓reduceIte, true_and]
  simp only [abs, isAccepted, getConfidence, hc, hv, hk]

/-- A counted vote is shifted into both registers. -/
theorem registerVote_registers (h : r.counted nodeid = true) :
    (r.registerVote nodeid error).2.votes = (r.votes <<< 1) ||| (if error = 0 then 1 else 0) ∧
      (r.registerVote nodeid error).2.consider =
        (r.consider <<< 1) ||| (if 0 ≤ error.toInt32 then 1 else 0) := by
  obtain ⟨-, hv, hk⟩ := addNodeToQuorum_keeps r.clearInflightRequest nodeid
  unfold counted at h
  rcases hq : r.clearInflightRequest.addNodeToQuorum nodeid with ⟨added, r₁⟩
  rw [hq] at hv hk h
  subst h
  dsimp only [clearInflightRequest] at hv hk
  simp only [registerVote, hq, Bool.not_true, Bool.false_eq_true, ↓reduceIte]
  rw [← hv, ← hk]
  generalize (r₁.votes <<< 1) ||| (if error = 0 then 1 else 0) = V
  generalize (r₁.consider <<< 1) ||| (if 0 ≤ error.toInt32 then 1 else 0) = C
  -- every branch of the round keeps the shifted registers
  split
  · exact ⟨rfl, rfl⟩
  · split <;> exact ⟨rfl, rfl⟩

/-- A counted vote is one step of the abstract machine, unless it takes the
confidence to `2^15`, where the packed counter wraps. -/
theorem registerVote_counted (h : r.counted nodeid = true)
    (hconf : (r.abs.vote (Vote.ofError error)).2.confidence < 2 ^ 15) :
    ((r.registerVote nodeid error).1, (r.registerVote nodeid error).2.abs) =
      r.abs.vote (Vote.ofError error) := by
  obtain ⟨hc, hv, hk⟩ := addNodeToQuorum_keeps r.clearInflightRequest nodeid
  unfold counted at h
  rcases hq : r.clearInflightRequest.addNodeToQuorum nodeid with ⟨added, r₁⟩
  rw [hq] at hc hv hk h
  subst h
  dsimp only [clearInflightRequest] at hc hv hk
  simp only [registerVote, hq, Bool.not_true, Bool.false_eq_true, ↓reduceIte, hv, hk]
  -- the registers after the shift hold the abstract window
  have hw := window_registerVote r.votes r.consider error
  have ho := outcome_window ((r.votes <<< 1) ||| (if error = 0 then 1 else 0))
    ((r.consider <<< 1) ||| (if 0 ≤ error.toInt32 then 1 else 0))
  rw [hw] at ho
  generalize (r.votes <<< 1) ||| (if error = 0 then 1 else 0) = V at hw ho ⊢
  generalize (r.consider <<< 1) ||| (if 0 ≤ error.toInt32 then 1 else 0) = C at hw ho ⊢
  generalize Script.countBits (V &&& C &&& 0xff).toNat = ny at ho ⊢
  generalize Script.countBits (~~~V &&& C &&& 0xff).toNat = nn at ho ⊢
  obtain ⟨hnone, hyes⟩ := round_of_outcome ho
  have hwin := (r.abs.vote_window (Vote.ofError error)).symm
  rcases VoteState.outcome_cases (outcome (Vote.ofError error :: (window r.votes r.consider).take 7))
    r.isAccepted with hn | ha | hf
  · -- an inconclusive round
    obtain ⟨h1, h2, h3⟩ := r.abs.vote_of_none _ hn
    rw [hn] at hnone
    simp only [hnone, Option.isNone_none, ↓reduceIte]
    refine Prod.ext h1.symm (VoteState.ext (hw.trans hwin) ?_ ?_)
    · rw [h2]
      show (r₁.confidence &&& 0x01 != 0) = (r.confidence &&& 0x01 != 0)
      rw [hc]
    · rw [h3]
      show (r₁.confidence >>> 1).toNat = (r.confidence >>> 1).toNat
      rw [hc]
  · -- a conclusive round that agrees: `confidence += 2`
    obtain ⟨h1, h2, h3⟩ := r.abs.vote_of_agree _ ha
    have hgrow : ((r₁.confidence + 2) >>> 1).toNat = r.getConfidence.toNat + 1 := by
      rw [hc]
      exact getConfidence_add_two _ (h3 ▸ hconf)
    have hagree : ((r₁.confidence &&& 0x01 != 0) == decide (ny > 6)) = true := by
      rw [hyes _ ha, hc]
      exact beq_self_eq_true _
    rw [ha] at hnone
    simp only [hnone, Option.isNone_some, Bool.false_eq_true, ↓reduceIte, isAccepted, hagree]
    refine Prod.ext ?_ (VoteState.ext (hw.trans hwin) ?_ ?_)
    · rw [h1]
      show (((r₁.confidence + 2) >>> 1).toNat == AVALANCHE_FINALIZATION_SCORE) = _
      rw [hgrow]
      rfl
    · rw [h2]
      show ((r₁.confidence + 2) &&& 0x01 != 0) = (r.confidence &&& 0x01 != 0)
      rw [isAccepted_add_two, hc]
    · rw [h3]
      exact hgrow
  · -- a conclusive round against the acceptance: `confidence = yes`
    obtain ⟨h1, h2, h3⟩ := r.abs.vote_of_flip _ hf
    have hflip : ((r₁.confidence &&& 0x01 != 0) == decide (ny > 6)) = false := by
      rw [hyes _ hf, hc]
      show (r.isAccepted == !r.isAccepted) = false
      cases r.isAccepted <;> rfl
    rw [hf] at hnone
    simp only [hnone, Option.isNone_some, Bool.false_eq_true, ↓reduceIte, isAccepted, hflip]
    refine Prod.ext h1.symm (VoteState.ext (hw.trans hwin) ?_ ?_)
    · rw [h2]
      show ((if ny > 6 then 1 else 0 : UInt16) &&& 0x01 != 0) = !r.isAccepted
      rw [(setResult (ny > 6)).1, hyes _ hf]
    · rw [h3]
      show ((if ny > 6 then 1 else 0 : UInt16) >>> 1).toNat = 0
      rw [(setResult (ny > 6)).2]
      rfl

/-- Every call follows the abstract machine, as long as it keeps the confidence
below `2^15`. -/
theorem registerVote_refines
    (hconf : (r.abs.step (r.counted nodeid) (Vote.ofError error)).2.confidence < 2 ^ 15) :
    ((r.registerVote nodeid error).1, (r.registerVote nodeid error).2.abs) =
      r.abs.step (r.counted nodeid) (Vote.ofError error) := by
  cases h : r.counted nodeid
  · obtain ⟨h1, h2⟩ := registerVote_refused r nodeid error h
    rw [h1, h2]
    rfl
  · rw [h] at hconf
    exact registerVote_counted r nodeid error h hconf

/-- The window after a call, with no bound on the confidence. -/
theorem window_registerVote_step :
    (r.registerVote nodeid error).2.abs.window =
      if r.counted nodeid then Vote.ofError error :: r.abs.window.take 7 else r.abs.window := by
  cases h : r.counted nodeid
  · rw [(registerVote_refused r nodeid error h).2]
    rfl
  · obtain ⟨hv, hk⟩ := registerVote_registers r nodeid error h
    show window _ _ = _
    rw [hv, hk, window_registerVote]
    rfl

/-! ## Runs -/

/-- The record after a run of `registerVote` calls. -/
def run (r : VoteRecord) (calls : List (NodeId × UInt32)) : VoteRecord :=
  calls.foldl (fun q c => (q.registerVote c.1 c.2).2) r

/-- The votes a run counted, the most recent first. -/
def countedVotes (r : VoteRecord) : List (NodeId × UInt32) → List Vote
  | [] => []
  | (nodeid, error) :: calls =>
    (r.registerVote nodeid error).2.countedVotes calls ++
      if r.counted nodeid then [Vote.ofError error] else []

/-- Keeping only the first `n` of a window, a vote pushed in front of it may
drop all but `n - 1` of the older ones first. -/
theorem take_append_cons_take {α : Type*} (A W : List α) (v : α) {n m : Nat} (h : n ≤ m + 1) :
    (A ++ v :: W.take m).take n = (A ++ v :: W).take n := by
  rw [List.take_append, List.take_append]
  congr 1
  rcases hk : n - A.length with _ | k
  · rfl
  · rw [List.take_succ_cons, List.take_succ_cons, List.take_take, Nat.min_eq_left (by omega)]

theorem run_append (calls : List (NodeId × UInt32)) :
    r.run (calls ++ [(nodeid, error)]) = ((r.run calls).registerVote nodeid error).2 := by
  simp [run, List.foldl_append]

/-- After any run the registers hold the last eight counted votes, those the
registers held before the run counting as the oldest. The induction is on the
run, from its first call. -/
theorem window_run : ∀ (r : VoteRecord) (calls : List (NodeId × UInt32)),
    (r.run calls).abs.window = (r.countedVotes calls ++ r.abs.window).take 8
  | r, [] => by
    rw [run, List.foldl_nil, countedVotes, List.nil_append, List.take_of_length_le]
    exact Nat.le_of_eq r.abs.length_window
  | r, (nodeid, error) :: calls => by
    have ih := window_run (r.registerVote nodeid error).2 calls
    rw [window_registerVote_step] at ih
    rw [run, List.foldl_cons, ← run, ih, countedVotes, List.append_assoc]
    cases r.counted nodeid
    · rfl
    · exact take_append_cons_take _ _ _ (by decide)

/-! ## The record over a run -/

/-- Every call of every run of `registerVote`, with the last eight counted
votes taken from the run's history: a counted vote is shifted into both
registers; the acceptance and the confidence change only when seven of the last
eight counted votes are yes or seven are no; a conclusive round that agrees
with the acceptance adds one to the confidence, one against it flips the
acceptance and the confidence starts over; and the call returns true exactly
when it flipped the acceptance or took the confidence to the finalization
score. The bound is that the call keeps the confidence, as the abstract machine
counts it, below `2^15`. -/
theorem registerVote_spec (r : VoteRecord) (calls : List (NodeId × UInt32)) (nodeid : NodeId)
    (error : UInt32)
    (hconf : ((r.run calls).abs.step ((r.run calls).counted nodeid)
      (Vote.ofError error)).2.confidence < 2 ^ 15) :
    let q := r.run calls
    let q' := (q.registerVote nodeid error).2
    let last8 := (r.countedVotes (calls ++ [(nodeid, error)]) ++ window r.votes r.consider).take 8
    (q.counted nodeid = true →
      q'.votes = (q.votes <<< 1) ||| (if error = 0 then 1 else 0) ∧
        q'.consider = (q.consider <<< 1) ||| (if 0 ≤ error.toInt32 then 1 else 0)) ∧
    ((q'.isAccepted, q'.getConfidence) ≠ (q.isAccepted, q.getConfidence) →
      q.counted nodeid = true ∧ (7 ≤ last8.count .yes ∨ 7 ≤ last8.count .no)) ∧
    (q.counted nodeid = true → outcome last8 = some q.isAccepted →
      q'.isAccepted = q.isAccepted ∧ q'.getConfidence.toNat = q.getConfidence.toNat + 1) ∧
    (q.counted nodeid = true → outcome last8 = some !q.isAccepted →
      q'.isAccepted = !q.isAccepted ∧ q'.getConfidence = 0) ∧
    ((q.registerVote nodeid error).1 = true ↔ q'.isAccepted ≠ q.isAccepted ∨
      (q.getConfidence.toNat ≠ AVALANCHE_FINALIZATION_SCORE ∧
        q'.getConfidence.toNat = AVALANCHE_FINALIZATION_SCORE)) := by
  intro q q' last8
  -- the last eight counted votes are the window after the call
  have hlast : last8 = q'.abs.window := by
    have h := window_run r (calls ++ [(nodeid, error)])
    rw [run_append] at h
    exact h.symm
  obtain ⟨hret, habs⟩ : (q.registerVote nodeid error).1 =
        (q.abs.step (q.counted nodeid) (Vote.ofError error)).1 ∧
      q'.abs = (q.abs.step (q.counted nodeid) (Vote.ofError error)).2 :=
    Prod.ext_iff.mp (registerVote_refines q nodeid error hconf)
  -- a counted call is a vote of the abstract machine
  have hvote : q.counted nodeid = true →
      last8 = Vote.ofError error :: q.abs.window.take 7 ∧ q'.abs = (q.abs.vote (Vote.ofError error)).2 :=
    fun hc => by
      rw [hc] at habs
      exact ⟨hlast.trans ((congrArg VoteState.window habs).trans (q.abs.vote_window _)), habs⟩
  refine ⟨registerVote_registers q nodeid error, ?_, ?_, ?_, ?_⟩
  · intro hne
    have hne' : (q'.abs.accepted, q'.abs.confidence) ≠ (q.abs.accepted, q.abs.confidence) := by
      intro heq
      simp only [Prod.mk.injEq] at heq
      exact hne (Prod.ext heq.1 (UInt16.toNat_inj.mp heq.2))
    rw [habs] at hne'
    obtain ⟨hc, hsome⟩ := q.abs.step_changed _ hne'
    refine ⟨hc, ?_⟩
    rw [(hvote hc).1]
    exact (VoteState.outcome_isSome_iff _).mp hsome
  · intro hc ha
    obtain ⟨hw, habs⟩ := hvote hc
    rw [hw] at ha
    obtain ⟨-, h2, h3⟩ := q.abs.vote_of_agree _ ha
    exact ⟨(congrArg VoteState.accepted habs).trans h2, (congrArg VoteState.confidence habs).trans h3⟩
  · intro hc hf
    obtain ⟨hw, habs⟩ := hvote hc
    rw [hw] at hf
    obtain ⟨-, h2, h3⟩ := q.abs.vote_of_flip _ hf
    exact ⟨(congrArg VoteState.accepted habs).trans h2,
      UInt16.toNat_inj.mp ((congrArg VoteState.confidence habs).trans h3)⟩
  · rw [hret, q.abs.step_fst_iff, ← habs]
    rfl

/-- Seven yes votes from seven nodes flip a new record to accepted; an eighth
yes vote is then a round that agrees with it. -/
theorem registerVote_spec_agreeingRound :
    let r := VoteRecord.init false 0
    let calls : List (NodeId × UInt32) := [(1, 0), (2, 0), (3, 0), (4, 0), (5, 0), (6, 0), (7, 0)]
    ((r.run calls).abs.step ((r.run calls).counted 8) (Vote.ofError 0)).2.confidence < 2 ^ 15 ∧
    (r.run calls).isAccepted = true ∧ (r.run calls).counted 8 = true ∧
    let q := r.run calls
    let q' := (q.registerVote 8 0).2
    let last8 := (r.countedVotes (calls ++ [(8, 0)]) ++ window r.votes r.consider).take 8
    (q.counted 8 = true →
      q'.votes = (q.votes <<< 1) ||| (if (0 : UInt32) = 0 then 1 else 0) ∧
        q'.consider = (q.consider <<< 1) ||| (if 0 ≤ (0 : UInt32).toInt32 then 1 else 0)) ∧
    ((q'.isAccepted, q'.getConfidence) ≠ (q.isAccepted, q.getConfidence) →
      q.counted 8 = true ∧ (7 ≤ last8.count .yes ∨ 7 ≤ last8.count .no)) ∧
    (q.counted 8 = true → outcome last8 = some q.isAccepted →
      q'.isAccepted = q.isAccepted ∧ q'.getConfidence.toNat = q.getConfidence.toNat + 1) ∧
    (q.counted 8 = true → outcome last8 = some !q.isAccepted →
      q'.isAccepted = !q.isAccepted ∧ q'.getConfidence = 0) ∧
    ((q.registerVote 8 0).1 = true ↔ q'.isAccepted ≠ q.isAccepted ∨
      (q.getConfidence.toNat ≠ AVALANCHE_FINALIZATION_SCORE ∧
        q'.getConfidence.toNat = AVALANCHE_FINALIZATION_SCORE)) := by
  intro r calls
  have h : ((r.run calls).abs.step ((r.run calls).counted 8) (Vote.ofError 0)).2.confidence < 2 ^ 15 := by
    decide
  exact ⟨h, by decide, by decide, registerVote_spec r calls 8 0 h⟩

/-! ## The quorum filter -/

/-- Slot `k` of the quorum filter, modulo 8. -/
def filterAt (r : VoteRecord) (k : Nat) : UInt16 :=
  r.nodeFilter[(⟨k % 8, Nat.mod_lt _ (by decide)⟩ : Fin 8)]

/-- The eight hashes of the quorum filter, the slot written last first: the
`i`-th is slot `successfulVotes - 1 - i`, modulo 8. -/
def quorumHistory (r : VoteRecord) : List UInt16 :=
  (List.range 8).map fun i => r.filterAt (r.successfulVotes.toNat + 7 - i)

theorem length_quorumHistory (r : VoteRecord) : r.quorumHistory.length = 8 := by
  rw [quorumHistory, List.length_map, List.length_range]

theorem getElem_quorumHistory (r : VoteRecord) {i : Nat} (h : i < r.quorumHistory.length) :
    r.quorumHistory[i] = r.filterAt (r.successfulVotes.toNat + 7 - i) := by
  simp only [quorumHistory, List.getElem_map, List.getElem_range]

theorem filterAt_congr (r : VoteRecord) {a b : Nat} (h : a % 8 = b % 8) : r.filterAt a = r.filterAt b := by
  simp only [filterAt, h]

/-- The quorum filter compares the node's hash with the seven written last. -/
theorem addNodeToQuorum_fst (r : VoteRecord) (nodeid : NodeId) :
    (r.addNodeToQuorum nodeid).1 = !decide (nodeHash r.seed nodeid ∈ r.quorumHistory.take 7) := by
  have hmem : ((List.range' 1 7).any fun i => r.filterAt (r.successfulVotes.toNat + i) ==
      nodeHash r.seed nodeid) = decide (nodeHash r.seed nodeid ∈ r.quorumHistory.take 7) := by
    rw [Bool.eq_iff_iff, List.any_eq_true]
    simp only [decide_eq_true_eq]
    rw [quorumHistory, ← List.map_take, List.take_range, List.mem_map]
    constructor
    · rintro ⟨i, hi, heq⟩
      rw [List.mem_range'_1] at hi
      refine ⟨7 - i, List.mem_range.mpr (by omega), ?_⟩
      rw [← beq_iff_eq.mp heq]
      exact filterAt_congr r (by omega)
    · rintro ⟨j, hj, heq⟩
      rw [List.mem_range] at hj
      refine ⟨7 - j, List.mem_range'_1.mpr (by omega), beq_iff_eq.mpr ?_⟩
      rw [← heq]
      exact filterAt_congr r (by omega)
  unfold addNodeToQuorum
  dsimp only
  rw [show ((List.range' 1 7).any fun i =>
      r.nodeFilter[(⟨(r.successfulVotes.toNat + i) % 8, Nat.mod_lt _ (by decide)⟩ : Fin 8)] ==
        nodeHash r.seed nodeid) = _ from hmem]
  split <;> simp_all

/-- A refused node leaves the record as it was. -/
theorem addNodeToQuorum_refused (r : VoteRecord) (nodeid : NodeId)
    (h : (r.addNodeToQuorum nodeid).1 = false) : (r.addNodeToQuorum nodeid).2 = r := by
  unfold addNodeToQuorum at h ⊢
  dsimp only at h ⊢
  split
  · rfl
  · rw [if_neg ‹_›] at h
    simp at h

/-- An admitted node is written over the oldest hash, and counted. -/
theorem addNodeToQuorum_admitted (r : VoteRecord) (nodeid : NodeId)
    (h : (r.addNodeToQuorum nodeid).1 = true) :
    (r.addNodeToQuorum nodeid).2.quorumHistory = nodeHash r.seed nodeid :: r.quorumHistory.take 7 ∧
      (r.addNodeToQuorum nodeid).2.successfulVotes = r.successfulVotes + 1 ∧
      (r.addNodeToQuorum nodeid).2.seed = r.seed := by
  unfold addNodeToQuorum at h ⊢
  dsimp only at h ⊢
  split
  · rename_i hc
    rw [if_pos hc] at h
    simp at h
  · refine ⟨?_, rfl, rfl⟩
    generalize hq : (true, _) = q
    have hsv : q.2.successfulVotes.toNat % 8 = (r.successfulVotes.toNat + 1) % 8 := by
      rw [← hq]
      show (r.successfulVotes + 1).toNat % 8 = _
      rw [UInt32.toNat_add, UInt32.toNat_one, Nat.mod_mod_of_dvd _ (by decide)]
    -- slot `k` of the new filter: the new hash where it was written, the old one elsewhere
    have hslot : ∀ k, q.2.filterAt k =
        if r.successfulVotes.toNat % 8 = k % 8 then nodeHash r.seed nodeid else r.filterAt k := by
      intro k
      rw [← hq]
      simp only [filterAt, Fin.getElem_fin, Vector.getElem_set, Nat.add_zero]
    have hl := length_quorumHistory q.2
    apply List.ext_getElem (by simp [length_quorumHistory])
    intro i h1 h2
    rw [getElem_quorumHistory, hslot]
    rcases i with _ | i
    · rw [if_pos (by omega), List.getElem_cons_zero]
    · rw [if_neg (by omega), List.getElem_cons_succ, List.getElem_take, getElem_quorumHistory]
      exact filterAt_congr r (by omega)

/-- `registerVote` writes the quorum filter only through `addNodeToQuorum`. -/
theorem registerVote_filter (r : VoteRecord) (nodeid : NodeId) (error : UInt32) :
    (r.registerVote nodeid error).2.nodeFilter = (r.clearInflightRequest.addNodeToQuorum nodeid).2.nodeFilter ∧
      (r.registerVote nodeid error).2.successfulVotes =
        (r.clearInflightRequest.addNodeToQuorum nodeid).2.successfulVotes ∧
      (r.registerVote nodeid error).2.seed = (r.clearInflightRequest.addNodeToQuorum nodeid).2.seed := by
  rcases hq : r.clearInflightRequest.addNodeToQuorum nodeid with ⟨added, r₁⟩
  simp only [registerVote, hq]
  generalize (r₁.votes <<< 1) ||| (if error = 0 then 1 else 0) = V
  generalize (r₁.consider <<< 1) ||| (if 0 ≤ error.toInt32 then 1 else 0) = C
  -- every branch of the round keeps the filter
  split
  · exact ⟨rfl, rfl, rfl⟩
  · split
    · exact ⟨rfl, rfl, rfl⟩
    · split <;> exact ⟨rfl, rfl, rfl⟩

theorem quorumHistory_eq_of (r r' : VoteRecord) (h1 : r'.nodeFilter = r.nodeFilter)
    (h2 : r'.successfulVotes = r.successfulVotes) : r'.quorumHistory = r.quorumHistory := by
  simp only [quorumHistory, filterAt, h1, h2]

/-- A vote is counted when the node's hash is not among the seven written
last. -/
theorem counted_eq (r : VoteRecord) (nodeid : NodeId) :
    r.counted nodeid = !decide (nodeHash r.seed nodeid ∈ r.quorumHistory.take 7) :=
  addNodeToQuorum_fst r.clearInflightRequest nodeid

/-- One call on the filter: a counted vote pushes the node's hash. -/
theorem registerVote_quorumHistory (r : VoteRecord) (nodeid : NodeId) (error : UInt32) :
    (r.registerVote nodeid error).2.quorumHistory =
        (if r.counted nodeid then nodeHash r.seed nodeid :: r.quorumHistory.take 7 else r.quorumHistory) ∧
      (r.registerVote nodeid error).2.successfulVotes =
        r.successfulVotes + (if r.counted nodeid then 1 else 0) ∧
      (r.registerVote nodeid error).2.seed = r.seed := by
  obtain ⟨hf, hs, hseed⟩ := registerVote_filter r nodeid error
  have hqh := quorumHistory_eq_of _ _ hf hs
  rw [hqh, hs, hseed]
  cases hc : r.counted nodeid
  · rw [addNodeToQuorum_refused _ _ hc]
    exact ⟨rfl, (UInt32.add_zero _).symm, rfl⟩
  · exact addNodeToQuorum_admitted _ _ hc

/-- The nodes whose votes a run counted, the most recent first. -/
def countedNodes (r : VoteRecord) : List (NodeId × UInt32) → List NodeId
  | [] => []
  | (nodeid, error) :: calls =>
    (r.registerVote nodeid error).2.countedNodes calls ++ if r.counted nodeid then [nodeid] else []

/-- After any run the filter holds the hashes of the last counted nodes, the
filter's earlier hashes counting as the oldest, and `successfulVotes` has
counted them. The induction is on the run, from its first call. -/
theorem quorumHistory_run : ∀ (r : VoteRecord) (calls : List (NodeId × UInt32)),
    (r.run calls).quorumHistory = ((r.countedNodes calls).map (nodeHash r.seed) ++ r.quorumHistory).take 8 ∧
      (r.run calls).successfulVotes = r.successfulVotes + UInt32.ofNat (r.countedNodes calls).length ∧
      (r.run calls).seed = r.seed
  | r, [] => by
    refine ⟨?_, (UInt32.add_zero _).symm, rfl⟩
    rw [run, List.foldl_nil, countedNodes, List.map_nil, List.nil_append, List.take_of_length_le]
    exact Nat.le_of_eq r.length_quorumHistory
  | r, (nodeid, error) :: calls => by
    obtain ⟨ih1, ih2, ih3⟩ := quorumHistory_run (r.registerVote nodeid error).2 calls
    obtain ⟨h1, h2, h3⟩ := registerVote_quorumHistory r nodeid error
    rw [run, List.foldl_cons, ← run]
    refine ⟨?_, ?_, ih3.trans h3⟩
    · rw [ih1, h1, h3, countedNodes, List.map_append, List.append_assoc]
      cases r.counted nodeid
      · rfl
      · exact take_append_cons_take _ _ _ (by decide)
    · rw [ih2, h2, countedNodes, List.length_append, UInt32.add_assoc]
      cases r.counted nodeid
      · simp
      · rw [if_pos rfl, if_pos rfl, List.length_singleton]
        congr 1
        rw [UInt32.ofNat_add, UInt32.add_comm]
        rfl

/-- The last call of a run adds its node in front of those counted before. -/
theorem countedNodes_append : ∀ (r : VoteRecord) (calls : List (NodeId × UInt32)) (nodeid : NodeId)
    (error : UInt32), r.countedNodes (calls ++ [(nodeid, error)]) =
      (if (r.run calls).counted nodeid then [nodeid] else []) ++ r.countedNodes calls
  | r, [], nodeid, error => by
    rw [List.nil_append, countedNodes, countedNodes, countedNodes, List.nil_append, List.append_nil]
    rfl
  | r, (n, e) :: calls, nodeid, error => by
    rw [List.cons_append, countedNodes, countedNodes_append, countedNodes, List.append_assoc]
    rfl

/-- Two of the last eight counted nodes never share a hash: each was counted
only because the hashes of the seven counted before it were not its own. The
induction is on the run, from its last call. -/
theorem countedNodes_spread (r : VoteRecord) (calls : List (NodeId × UInt32)) :
    ∀ i j, i < j → j < i + 8 → j < (r.countedNodes calls).length →
      ((r.countedNodes calls)[i]?).map (nodeHash r.seed) ≠ ((r.countedNodes calls)[j]?).map (nodeHash r.seed) := by
  induction calls using List.reverseRecOn with
  | nil => intro i j _ _ hj; exact absurd hj (by simp [countedNodes])
  | append_singleton calls c ih =>
    obtain ⟨nodeid, error⟩ := c
    rw [countedNodes_append]
    cases hc : (r.run calls).counted nodeid
    · simpa using ih
    · -- the new node is in front; its hash is not among the seven before it
      rw [counted_eq, (quorumHistory_run r calls).1, (quorumHistory_run r calls).2.2,
        List.take_take, Nat.min_eq_left (by decide)] at hc
      simp only [Bool.not_eq_eq_eq_not, Bool.not_true, decide_eq_false_iff_not] at hc
      intro i j hij hj8 hjl
      simp only [if_pos, List.singleton_append, List.length_cons] at hjl ⊢
      rcases i with _ | i
      · obtain ⟨j, rfl⟩ : ∃ j', j = j' + 1 := ⟨j - 1, by omega⟩
        rw [List.getElem?_cons_zero, List.getElem?_cons_succ, List.getElem?_eq_getElem (by omega)]
        simp only [Option.map_some, ne_eq, Option.some.injEq]
        intro heq
        apply hc
        rw [heq]
        refine List.mem_iff_getElem.mpr ⟨j, by simp; omega, ?_⟩
        rw [List.getElem_take, List.getElem_append_left (by simp; omega), List.getElem_map]
      · obtain ⟨j, rfl⟩ : ∃ j', j = j' + 1 := ⟨j - 1, by omega⟩
        rw [List.getElem?_cons_succ, List.getElem?_cons_succ]
        exact ih i j (by omega) (by omega) (by omega)

/-- The quorum filter over every run: a call is counted exactly when the
node's hash is not among the seven written last, which are the hashes of the
nodes counted before it, the most recent first, followed by the hashes the
filter held before the run (all zero on a new record); two votes of one node
are never among eight consecutive counted votes; and `successfulVotes` counts
the counted votes, modulo `2^32`. -/
theorem registerVote_quorumFilter (r : VoteRecord) (calls : List (NodeId × UInt32)) :
    (∀ (pre : List (NodeId × UInt32)) (nodeid : NodeId), (r.run pre).counted nodeid =
      !decide (nodeHash r.seed nodeid ∈
        ((r.countedNodes pre).map (nodeHash r.seed) ++ r.quorumHistory).take 7)) ∧
    (∀ (accepted : Bool) (seed : UInt32), (VoteRecord.init accepted seed).quorumHistory = List.replicate 8 0) ∧
    (∀ i j, i < j → j < i + 8 → j < (r.countedNodes calls).length →
      (r.countedNodes calls)[i]? ≠ (r.countedNodes calls)[j]?) ∧
    (r.run calls).successfulVotes = r.successfulVotes + UInt32.ofNat (r.countedNodes calls).length := by
  refine ⟨fun pre nodeid => ?_, fun _ _ => rfl, fun i j hij hj8 hjl heq => ?_,
    (quorumHistory_run r calls).2.1⟩
  · obtain ⟨hq, -, hseed⟩ := quorumHistory_run r pre
    rw [counted_eq, hq, hseed, List.take_take, Nat.min_eq_left (by decide)]
  · exact countedNodes_spread r calls i j hij hj8 hjl (by rw [heq])

/-- On a new record the filter already holds eight zero hashes: the first vote
of a node whose hash is `0` is refused, though no vote was counted before. -/
theorem quorumFilter_refuses_zero_hash :
    (VoteRecord.init false 0).successfulVotes = 0 ∧ nodeHash 0 6739336422578075321 = 0 ∧
      (VoteRecord.init false 0).counted 6739336422578075321 = false := by
  decide

end VoteRecord

end Avalanche

end BitcoinAbc
