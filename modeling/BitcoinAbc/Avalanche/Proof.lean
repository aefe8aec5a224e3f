import Mathlib
import BitcoinAbc.Validation.ConnectBlock
import BitcoinAbc.Script.Standard

/-!
# Avalanche proofs and their score (avalanche/proof.cpp)

A `Proof` stakes coins: each `SignedStake` names an outpoint, the amount it
says the coin holds, the coin's height and coinbase flag, and the key that
signs it. The proof's score, `100 * total / COIN` as a `uint32_t`, is computed
as soon as the proof is built or read (`computeScore`, run by `SER_READ`),
before any check of the amounts. `Proof.verify` checks the proof on its own,
and `Proof.verifyWithChain`, the overload that takes the chainstate, checks
every stake against the coins.

- `Proof.verify_eq_ok_iff`: the proofs `verify` accepts, in one statement;
- `Proof.computeScore_eq_ok`: the score is `100 * total / COIN` when nothing
  overflows on the way;
- `Proof.verifyWithChain_score`: a proof accepted against coins in
  `MoneyRange` worth at most `MAX_MONEY` has its score computed without
  overflow, and the score is at most `2^32 - 1`;
- `Proof.computeScore_overflows`: the amounts are read as any `int64_t`, and
  two large ones overflow the running total of `computeScore`.
-/

namespace BitcoinAbc

namespace Avalanche

open Function

/-- `AVALANCHE_MAX_PROOF_STAKES`. -/
def AVALANCHE_MAX_PROOF_STAKES : Nat := 1000

/-- `ProofValidationResult`. -/
inductive ProofValidationResult where
  | NONE
  | NO_STAKE
  | DUST_THRESHOLD
  | DUPLICATE_STAKE
  | WRONG_STAKE_ORDERING
  | INVALID_STAKE_SIGNATURE
  | TOO_MANY_UTXOS
  | INVALID_PAYOUT_SCRIPT
  | INVALID_PROOF_SIGNATURE
  | EXPIRED
  | MISSING_UTXO
  | COINBASE_MISMATCH
  | HEIGHT_MISMATCH
  | AMOUNT_MISMATCH
  | NON_STANDARD_DESTINATION
  | DESTINATION_NOT_SUPPORTED
  | DESTINATION_MISMATCH
  | IMMATURE_UTXO
  deriving DecidableEq, Repr

/-- A check of a proof: `state.Invalid(result, reason)`, or an `int64_t`
overflow of the score. -/
abbrev ProofCheck (α : Type) := Except (CheckError ProofValidationResult) α

/-- `StakeId`, a `uint256`: its 32 bytes, which `operator<` compares with
`memcmp`. -/
structure StakeId where
  data : List UInt8
  length_eq : data.length = 32
  deriving DecidableEq

instance : LT StakeId := ⟨fun a b => a.data < b.data⟩

instance (a b : StakeId) : Decidable (a < b) := inferInstanceAs (Decidable (a.data < b.data))

/-- `uint256::ZERO`. -/
def StakeId.ZERO : StakeId := ⟨List.replicate 32 0, rfl⟩

/-- `ProofId`, a `uint256`: its 32 bytes, which `operator<` compares with
`memcmp`. -/
structure ProofId where
  data : List UInt8
  length_eq : data.length = 32
  deriving DecidableEq

instance : LT ProofId := ⟨fun a b => a.data < b.data⟩

instance (a b : ProofId) : Decidable (a < b) := inferInstanceAs (Decidable (a.data < b.data))

/-- `ProofId()`: a default-constructed id, all zero. -/
def ProofId.ZERO : ProofId := ⟨List.replicate 32 0, rfl⟩

/-- `Stake`. `height` packs the height and the coinbase flag as
`height << 1 | is_coinbase`; `stakeid` is the hash that `computeStakeId` takes
of the serialized stake. -/
structure Stake where
  utxo : COutPoint
  amount : Amount
  height : UInt32
  pubkey : List UInt8
  stakeid : StakeId

namespace Stake

def getHeight (s : Stake) : UInt32 := s.height >>> 1

def isCoinbase (s : Stake) : Bool := s.height &&& 1 != 0

end Stake

/-- `SignedStake`. -/
structure SignedStake where
  stake : Stake
  sig : List UInt8

/-- `Proof`, as it is serialized; its ids and its score are computed from
these fields. -/
structure Proof where
  sequence : UInt64
  expirationTime : Int
  master : List UInt8
  stakes : List SignedStake
  payoutScriptPubKey : CScript
  signature : List UInt8

/-- `CTxDestination`, as far as `verify` tells its kinds apart. -/
inductive CTxDestination where
  | PKHash (hash : BitVec 160)
  | other

/-- What `verify` asks of the script and signature code, left open: the
standardness of the payout script, the two Schnorr checks, the destination of
a coin's script and the hash of a key. -/
structure ProofChecks where
  IsStandard : CScript → Bool
  VerifyProofSignature : Proof → Bool
  VerifyStake : Proof → SignedStake → Bool
  ExtractDestination : CScript → Option CTxDestination
  PKHashOf : List UInt8 → BitVec 160

/-- What `verify` reads of the chainstate: the median time past of the active
tip, when there is one, the height of the active chain, and the coins of
`CoinsTip()`. -/
structure ChainView where
  tipMedianTimePast : Option Int
  activeHeight : Int
  coins : COutPoint → Option Coin

/-! ## The score -/

/-- `Proof::amountToScore(amount)`: `(100 * amount) / COIN`, whose `int64_t`
quotient converts to `uint32_t`. -/
def amountToScore (amount : Amount) : ProofCheck UInt32 := do
  let scaled ← Amount.mul 100 amount
  -- `Amount / Amount` is `int64_t` division, which truncates toward zero
  return UInt32.ofInt (scaled.amount.tdiv COIN.amount)

namespace Proof

/-- `Proof::computeScore()`. -/
def computeScore (proof : Proof) : ProofCheck UInt32 := do
  let total ← proof.stakes.foldlM (fun total s => total.add s.stake.amount) ⟨0⟩
  amountToScore total

/-- `Proof::getStakedAmount()`. -/
def getStakedAmount (proof : Proof) : ProofCheck Amount :=
  proof.stakes.foldlM (fun current ss => current.add ss.stake.amount) ⟨0⟩

/-- The total of the stakes' amounts, as integers. -/
def stakeTotal (proof : Proof) : Int := (proof.stakes.map fun ss => ss.stake.amount.amount).sum

end Proof

/-! ## `verify` -/

/-- The loop of `Proof::verify` over the stakes, from the id of the previous
stake and the outpoints seen so far. -/
def verifyStakes (checks : ProofChecks) (stakeUtxoDustThreshold : Amount) (proof : Proof) :
    StakeId → List COutPoint → List SignedStake → ProofCheck Unit
  | _, _, [] => .ok ()
  | prevId, utxos, ss :: rest => do
    if ss.stake.amount.amount < stakeUtxoDustThreshold.amount then
      throw (.invalid .DUST_THRESHOLD "amount-below-dust-threshold")
    if ss.stake.stakeid < prevId then
      throw (.invalid .WRONG_STAKE_ORDERING "wrong-stake-ordering")
    -- `!utxos.insert(s.getUTXO()).second`
    if ss.stake.utxo ∈ utxos then
      throw (.invalid .DUPLICATE_STAKE "duplicated-stake")
    if !checks.VerifyStake proof ss then
      throw (.invalid .INVALID_STAKE_SIGNATURE "invalid-stake-signature")
    verifyStakes checks stakeUtxoDustThreshold proof ss.stake.stakeid (ss.stake.utxo :: utxos) rest

/-- `Proof::verify(stakeUtxoDustThreshold, state)`. -/
def Proof.verify (checks : ProofChecks) (stakeUtxoDustThreshold : Amount) (proof : Proof) :
    ProofCheck Unit := do
  if proof.stakes.isEmpty then throw (.invalid .NO_STAKE "no-stake")
  if proof.stakes.length > AVALANCHE_MAX_PROOF_STAKES then
    throw (.invalid .TOO_MANY_UTXOS "too-many-utxos")
  if !checks.IsStandard proof.payoutScriptPubKey then
    throw (.invalid .INVALID_PAYOUT_SCRIPT "payout-script-non-standard")
  if !checks.VerifyProofSignature proof then
    throw (.invalid .INVALID_PROOF_SIGNATURE "invalid-proof-signature")
  verifyStakes checks stakeUtxoDustThreshold proof StakeId.ZERO [] proof.stakes

/-- The checks of one stake against the coins, in the loop of
`Proof::verify(stakeUtxoDustThreshold, chainman, state)`. -/
def verifyStakeUtxo (checks : ProofChecks) (chain : ChainView) (stakeUtxoMinConfirmations : Int)
    (ss : SignedStake) : ProofCheck Unit :=
  match chain.coins ss.stake.utxo with
  -- The coins are not in the UTXO set.
  | none => throw (.invalid .MISSING_UTXO "utxo-missing-or-spent")
  | some coin => do
    if ss.stake.getHeight.toNat + stakeUtxoMinConfirmations - 1 > chain.activeHeight then
      throw (.invalid .IMMATURE_UTXO "immature-utxo")
    if ss.stake.isCoinbase != coin.IsCoinBase then
      throw (.invalid .COINBASE_MISMATCH "coinbase-mismatch")
    if ss.stake.getHeight != coin.GetHeight then
      throw (.invalid .HEIGHT_MISMATCH "height-mismatch")
    -- Wrong amount.
    if ss.stake.amount != coin.out.nValue then
      throw (.invalid .AMOUNT_MISMATCH "amount-mismatch")
    match checks.ExtractDestination coin.out.scriptPubKey with
    -- Can't extract destination.
    | none => throw (.invalid .NON_STANDARD_DESTINATION "non-standard-destination")
    | some (.PKHash pkhash) =>
      -- Wrong pubkey.
      if pkhash != checks.PKHashOf ss.stake.pubkey then
        throw (.invalid .DESTINATION_MISMATCH "destination-mismatch")
    -- Only PKHash are supported.
    | some .other => throw (.invalid .DESTINATION_NOT_SUPPORTED "destination-type-not-supported")

/-- `Proof::verify(stakeUtxoDustThreshold, chainman, state)`, with the
`-avaproofstakeutxoconfirmations` setting as `stakeUtxoMinConfirmations`. -/
def Proof.verifyWithChain (checks : ProofChecks) (stakeUtxoDustThreshold : Amount)
    (chain : ChainView) (stakeUtxoMinConfirmations : Int) (proof : Proof) : ProofCheck Unit := do
  proof.verify checks stakeUtxoDustThreshold
  let tipMedianTimePast := chain.tipMedianTimePast.getD 0
  if proof.expirationTime > 0 && tipMedianTimePast ≥ proof.expirationTime then
    throw (.invalid .EXPIRED "expired-proof")
  proof.stakes.forM fun ss => verifyStakeUtxo checks chain stakeUtxoMinConfirmations ss

/-! ## What `verify` accepts -/

/-- No list of bytes is below as many zero bytes. -/
theorem not_lt_replicate_zero : ∀ l : List UInt8, ¬ l < List.replicate l.length 0
  | [], h => nomatch h
  | a :: l, h => by
    rw [List.length_cons, List.replicate_succ] at h
    cases h with
    | rel ha => exact UInt8.not_lt_zero ha
    | cons hl => exact not_lt_replicate_zero l hl

theorem StakeId.not_lt_ZERO (id : StakeId) : ¬ id < StakeId.ZERO := by
  have h := not_lt_replicate_zero id.data
  rw [id.length_eq] at h
  exact h

/-- Stake ids that do not go down, as the loop of `verify` checks them: no id
is below the one before. -/
def StakeId.NonDecreasing (ids : List StakeId) : Prop := ids.IsChain fun a b => ¬ b < a

/-- The loop starts from `uint256::ZERO`, which is below no id. -/
theorem StakeId.nonDecreasing_ZERO_cons (ids : List StakeId) :
    StakeId.NonDecreasing (StakeId.ZERO :: ids) ↔ StakeId.NonDecreasing ids := by
  cases ids with
  | nil => exact ⟨fun _ => .nil, fun _ => .singleton _⟩
  | cons id ids =>
    unfold StakeId.NonDecreasing
    rw [List.isChain_cons_cons]
    exact ⟨fun h => h.2, fun h => ⟨StakeId.not_lt_ZERO id, h⟩⟩

section Verify

variable {checks : ProofChecks} {stakeUtxoDustThreshold : Amount} {proof : Proof}

/-- The loop of `verify` accepts exactly stakes at or above the dust threshold,
with ids that do not go down from `prevId`, at pairwise distinct outpoints none
of which was seen, and with valid signatures. The induction is on the
stakes. -/
theorem verifyStakes_eq_ok_iff : ∀ (prevId : StakeId) (utxos : List COutPoint)
    (stakes : List SignedStake),
    verifyStakes checks stakeUtxoDustThreshold proof prevId utxos stakes = .ok () ↔
      (∀ ss ∈ stakes, stakeUtxoDustThreshold.amount ≤ ss.stake.amount.amount) ∧
      StakeId.NonDecreasing (prevId :: stakes.map (·.stake.stakeid)) ∧
      (stakes.map (·.stake.utxo)).Nodup ∧ (∀ ss ∈ stakes, ss.stake.utxo ∉ utxos) ∧
      ∀ ss ∈ stakes, checks.VerifyStake proof ss = true
  | prevId, utxos, [] => by
    simp only [verifyStakes, List.not_mem_nil, IsEmpty.forall_iff, implies_true, List.map_nil,
      List.nodup_nil, true_and, true_iff]
    exact ⟨List.IsChain.singleton prevId, trivial⟩
  | prevId, utxos, ss :: rest => by
    rw [verifyStakes]
    dsimp only
    rw [Except.ite_throw_bind_eq_ok_iff, Except.ite_throw_bind_eq_ok_iff,
      Except.ite_throw_bind_eq_ok_iff, Except.ite_throw_bind_eq_ok_iff,
      verifyStakes_eq_ok_iff]
    unfold StakeId.NonDecreasing
    simp only [List.forall_mem_cons]
    simp only [List.map_cons, List.isChain_cons_cons, List.nodup_cons, List.mem_cons, not_or,
      List.mem_map, not_exists, not_and, Int.not_lt, Bool.not_eq_true', Bool.not_eq_false]
    constructor
    · rintro ⟨hdust, hord, hseen, hsig, hdust', hchain, hnd, hnot, hsig'⟩
      exact ⟨⟨hdust, hdust'⟩, ⟨hord, hchain⟩, ⟨fun x hx he => (hnot x hx).1 he, hnd⟩,
        ⟨hseen, fun x hx => (hnot x hx).2⟩, hsig, hsig'⟩
    · rintro ⟨⟨hdust, hdust'⟩, ⟨hord, hchain⟩, ⟨hfirst, hnd⟩, ⟨hseen, hnot⟩, hsig, hsig'⟩
      exact ⟨hdust, hord, hseen, hsig, hdust', hchain, hnd,
        fun x hx => ⟨hfirst x hx, hnot x hx⟩, hsig'⟩

/-- `verify` accepts exactly the proofs with 1 to `AVALANCHE_MAX_PROOF_STAKES`
stakes, a standard payout script and a valid signature, whose stakes are at or
above the dust threshold, with ids that do not go down, at pairwise distinct
outpoints and with valid signatures. -/
theorem Proof.verify_eq_ok_iff :
    proof.verify checks stakeUtxoDustThreshold = .ok () ↔
      proof.stakes ≠ [] ∧ proof.stakes.length ≤ AVALANCHE_MAX_PROOF_STAKES ∧
      checks.IsStandard proof.payoutScriptPubKey = true ∧
      checks.VerifyProofSignature proof = true ∧
      (∀ ss ∈ proof.stakes, stakeUtxoDustThreshold.amount ≤ ss.stake.amount.amount) ∧
      StakeId.NonDecreasing (proof.stakes.map (·.stake.stakeid)) ∧
      (proof.stakes.map (·.stake.utxo)).Nodup ∧
      ∀ ss ∈ proof.stakes, checks.VerifyStake proof ss = true := by
  rw [Proof.verify]
  dsimp only
  rw [Except.ite_throw_bind_eq_ok_iff, Except.ite_throw_bind_eq_ok_iff,
    Except.ite_throw_bind_eq_ok_iff, Except.ite_throw_bind_eq_ok_iff, verifyStakes_eq_ok_iff,
    StakeId.nonDecreasing_ZERO_cons]
  simp only [List.isEmpty_iff, Nat.not_lt, Bool.not_eq_true', Bool.not_eq_false,
    List.not_mem_nil, not_false_eq_true, implies_true, true_and]

/-- The checks of one stake against the coins pass only for a coin there,
mature, with the stake's coinbase flag, height and amount, paid to the hash of
the stake's key. -/
theorem verifyStakeUtxo_eq_ok {chain : ChainView} {stakeUtxoMinConfirmations : Int}
    {ss : SignedStake} (h : verifyStakeUtxo checks chain stakeUtxoMinConfirmations ss = .ok ()) :
    ∃ coin, chain.coins ss.stake.utxo = some coin ∧
      ss.stake.getHeight.toNat + stakeUtxoMinConfirmations - 1 ≤ chain.activeHeight ∧
      ss.stake.isCoinbase = coin.IsCoinBase ∧ ss.stake.getHeight = coin.GetHeight ∧
      ss.stake.amount = coin.out.nValue ∧
      checks.ExtractDestination coin.out.scriptPubKey =
        some (.PKHash (checks.PKHashOf ss.stake.pubkey)) := by
  unfold verifyStakeUtxo at h
  split at h
  · exact (nomatch h)
  · next coin hcoin =>
    obtain ⟨hmature, h⟩ := Except.ite_throw_bind_eq_ok h
    obtain ⟨hcb, h⟩ := Except.ite_throw_bind_eq_ok h
    obtain ⟨hheight, h⟩ := Except.ite_throw_bind_eq_ok h
    obtain ⟨hamount, h⟩ := Except.ite_throw_bind_eq_ok h
    refine ⟨coin, hcoin, Int.not_lt.mp hmature, by simpa using hcb, by simpa using hheight,
      by simpa using hamount, ?_⟩
    split at h
    · exact (nomatch h)
    · next pkhash hdest =>
      split at h
      · exact (nomatch h)
      · next hkey =>
        rw [hdest]
        simpa using hkey
    · exact (nomatch h)

/-- A proof accepted against the chainstate passes `verify`, and every stake
passes its checks against the coins. -/
theorem Proof.verifyWithChain_eq_ok {chain : ChainView} {stakeUtxoMinConfirmations : Int}
    (h : proof.verifyWithChain checks stakeUtxoDustThreshold chain stakeUtxoMinConfirmations =
      .ok ()) :
    proof.verify checks stakeUtxoDustThreshold = .ok () ∧
      ∀ ss ∈ proof.stakes, verifyStakeUtxo checks chain stakeUtxoMinConfirmations ss = .ok () := by
  rw [Proof.verifyWithChain, Except.bind_eq_ok] at h
  obtain ⟨⟨⟩, hverify, h⟩ := h
  obtain ⟨-, h⟩ := Except.ite_throw_bind_eq_ok h
  exact ⟨hverify, (Except.forM_eq_ok _).mp h⟩

end Verify

/-! ## The score of a proof -/

/-- A value in `[0, 2^32)` converts to `uint32_t` unchanged. -/
theorem toNat_ofInt_of_lt {x : Int} (h0 : 0 ≤ x) (h1 : x < 2 ^ 32) :
    ((UInt32.ofInt x).toNat : Int) = x := by
  simp only [UInt32.ofInt, UInt32.toNat_ofNat', Int.natCast_emod, Int.ofNat_toNat]
  omega

/-- Where `100 * amount` fits in `int64_t`, the score is the truncated quotient
by `COIN`, converted to `uint32_t`. -/
theorem amountToScore_eq_ok {amount : Amount} (h : Script.inInt64 (100 * amount.amount) = true) :
    amountToScore amount = .ok (UInt32.ofInt ((100 * amount.amount).tdiv COIN.amount)) := by
  rw [amountToScore, Amount.mul_eq_ok h]
  rfl

namespace Proof

/-- `computeScore` adds the stakes as `getStakedAmount` does. -/
theorem computeScore_eq_bind (proof : Proof) :
    proof.computeScore = proof.getStakedAmount >>= amountToScore := rfl

theorem stakeTotal_nonneg {proof : Proof} (hnonneg : ∀ ss ∈ proof.stakes, 0 ≤ ss.stake.amount.amount) :
    0 ≤ proof.stakeTotal :=
  List.sum_nonneg fun _ hmem => by
    obtain ⟨ss, hss, rfl⟩ := List.mem_map.mp hmem
    exact hnonneg ss hss

/-- Stakes that are not negative, whose total fits in `int64_t`, add up
without overflow. -/
theorem getStakedAmount_eq_ok {proof : Proof}
    (hnonneg : ∀ ss ∈ proof.stakes, 0 ≤ ss.stake.amount.amount)
    (htotal : proof.stakeTotal ≤ 2 ^ 63 - 1) :
    proof.getStakedAmount = .ok ⟨proof.stakeTotal⟩ := by
  have h := Amount.foldlM_add_eq_ok (ρ := ProofValidationResult) (fun ss : SignedStake => ss.stake.amount)
    proof.stakes ⟨0⟩ (Int.le_refl 0) hnonneg (by rw [Int.zero_add]; exact htotal)
  rw [Int.zero_add] at h
  exact h

/-- For stakes that are not negative, with `100` times their total in
`int64_t`, the score is `100 * total / COIN` as a `uint32_t`. -/
theorem computeScore_eq_ok {proof : Proof}
    (hnonneg : ∀ ss ∈ proof.stakes, 0 ≤ ss.stake.amount.amount)
    (htotal : 100 * proof.stakeTotal ≤ 2 ^ 63 - 1) :
    proof.computeScore = .ok (UInt32.ofInt (100 * proof.stakeTotal / COIN.amount)) := by
  have hpos := stakeTotal_nonneg hnonneg
  rw [computeScore_eq_bind, getStakedAmount_eq_ok hnonneg (by omega), Except.ok_bind,
    amountToScore_eq_ok (Script.CScriptNum.inInt64_iff.mpr (by dsimp only; omega)),
    Int.tdiv_eq_ediv_of_nonneg (by dsimp only; omega)]

end Proof

section Score

variable {checks : ProofChecks} {stakeUtxoDustThreshold : Amount} {chain : ChainView}
  {stakeUtxoMinConfirmations : Int} {proof : Proof}

/-- Against coins in `MoneyRange` worth at most `MAX_MONEY` in all, the stakes
of an accepted proof claim coins at pairwise distinct outpoints, each for its
value, so their total is in `MoneyRange`. -/
theorem Proof.stakeTotal_le_of_verifyWithChain {s : Finset COutPoint}
    (hcoins : ∀ o c, chain.coins o = some c → MoneyRange c.out.nValue = true)
    (hs : SupportedOn chain.coins s) (htotal : weightSum coinValue chain.coins s ≤ MAX_MONEY.amount)
    (h : proof.verifyWithChain checks stakeUtxoDustThreshold chain stakeUtxoMinConfirmations =
      .ok ()) :
    (∀ ss ∈ proof.stakes, MoneyRange ss.stake.amount = true) ∧
      proof.stakeTotal ≤ MAX_MONEY.amount := by
  obtain ⟨hverify, hstakes⟩ := Proof.verifyWithChain_eq_ok h
  obtain ⟨-, -, -, -, -, -, hnd, -⟩ := Proof.verify_eq_ok_iff.mp hverify
  -- each stake names a coin and claims its value
  have hcoin : ∀ ss ∈ proof.stakes, ∃ coin, chain.coins ss.stake.utxo = some coin ∧
      ss.stake.amount = coin.out.nValue := fun ss hss => by
    obtain ⟨coin, hc, -, -, -, hamount, -⟩ := verifyStakeUtxo_eq_ok (hstakes ss hss)
    exact ⟨coin, hc, hamount⟩
  have hrange : ∀ ss ∈ proof.stakes, MoneyRange ss.stake.amount = true := fun ss hss => by
    obtain ⟨coin, hc, hamount⟩ := hcoin ss hss
    rw [hamount]
    exact hcoins _ coin hc
  have hsum : proof.stakeTotal =
      ((proof.stakes.map (·.stake.utxo)).map fun k => entryWeight coinValue (chain.coins k)).sum := by
    rw [Proof.stakeTotal, List.map_map]
    congr 1
    refine List.map_congr_left fun ss hss => ?_
    obtain ⟨coin, hc, hamount⟩ := hcoin ss hss
    simp only [comp_apply, hc, entryWeight_some, coinValue, hamount]
  -- the outpoints are held by `s`, so the claimed values are part of the total
  have hheld : ∀ k ∈ proof.stakes.map (·.stake.utxo), k ∈ s := fun k hk => by
    obtain ⟨ss, hss, rfl⟩ := List.mem_map.mp hk
    obtain ⟨coin, hc, -⟩ := hcoin ss hss
    exact hs _ (by rw [hc]; rfl)
  have hle := sum_le_weightSum (fun o c hc => (MoneyRange_iff.mp (hcoins o c hc)).1) hnd hheld
  exact ⟨hrange, by rw [hsum]; exact Int.le_trans hle htotal⟩

/-- A proof that `verify` accepts against coins in `MoneyRange` worth at most
`MAX_MONEY` in all: its staked amount and its score are computed without
overflow, and the score is `100 * getStakedAmount() / COIN`, at most
`2^32 - 1`. -/
theorem Proof.verifyWithChain_score {s : Finset COutPoint}
    (hcoins : ∀ o c, chain.coins o = some c → MoneyRange c.out.nValue = true)
    (hs : SupportedOn chain.coins s) (htotal : weightSum coinValue chain.coins s ≤ MAX_MONEY.amount)
    (h : proof.verifyWithChain checks stakeUtxoDustThreshold chain stakeUtxoMinConfirmations =
      .ok ()) :
    ∃ staked score, proof.getStakedAmount = .ok staked ∧ proof.computeScore = .ok score ∧
      MoneyRange staked = true ∧ (score.toNat : Int) = 100 * staked.amount / COIN.amount ∧
      score.toNat ≤ 2 ^ 32 - 1 := by
  obtain ⟨hrange, hle⟩ := Proof.stakeTotal_le_of_verifyWithChain hcoins hs htotal h
  have hnonneg : ∀ ss ∈ proof.stakes, 0 ≤ ss.stake.amount.amount :=
    fun ss hss => (MoneyRange_iff.mp (hrange ss hss)).1
  have hpos := Proof.stakeTotal_nonneg hnonneg
  rw [MAX_MONEY_amount] at hle
  have hcoin : COIN.amount = 100000000 := rfl
  -- `100 * MAX_MONEY / COIN` is `2.1 * 10^9`, below `2^32`
  have hscore := toNat_ofInt_of_lt (x := 100 * proof.stakeTotal / COIN.amount)
    (by rw [hcoin]; omega) (by rw [hcoin]; omega)
  refine ⟨⟨proof.stakeTotal⟩, _, Proof.getStakedAmount_eq_ok hnonneg (by omega),
    Proof.computeScore_eq_ok hnonneg (by omega), MoneyRange_iff.mpr ⟨hpos, hle⟩, hscore, ?_⟩
  have : ((UInt32.ofInt (100 * proof.stakeTotal / COIN.amount)).toNat : Int) ≤ 2 ^ 32 - 1 := by
    rw [hscore, hcoin]
    omega
  omega

/-- Two stakes of `10 * COIN`, each claiming its own non-coinbase coin of that
value at height `0`, against a chain of height `100` that asks for ten
confirmations; payout and coin scripts are P2PKH, standard by policy.cpp, and
the coin's destination is the hash of the stakes' key: the proof is accepted
and its score is `2000`. -/
theorem Proof.verifyWithChain_score_twoCoins :
    let payout : CScript := [0x76, 0xa9, 0x14] ++ List.replicate 20 0 ++ [0x88, 0xac]
    let utxo (n : UInt32) : COutPoint := ⟨⟨0⟩, n⟩
    let stake (n : UInt32) : SignedStake := ⟨⟨utxo n, ⟨10 * COIN.amount⟩, 0, [], StakeId.ZERO⟩, []⟩
    let proof : Proof := ⟨0, 0, [], [stake 0, stake 1], payout, []⟩
    let checks : ProofChecks :=
      ⟨fun s => (Script.IsStandard true Script.MAX_OP_RETURN_RELAY s).toOption == some true,
        fun _ => true, fun _ _ => true, fun s => if s = payout then some (.PKHash 7) else none,
        fun _ => 7⟩
    let chain : ChainView :=
      ⟨none, 100, fun o => if o ∈ [utxo 0, utxo 1] then some ⟨⟨⟨10 * COIN.amount⟩, payout⟩, 0⟩
        else none⟩
    proof.verifyWithChain checks COIN chain 10 = .ok () ∧
      ∃ staked score, proof.getStakedAmount = .ok staked ∧ proof.computeScore = .ok score ∧
        MoneyRange staked = true ∧ (score.toNat : Int) = 100 * staked.amount / COIN.amount ∧
        score.toNat ≤ 2 ^ 32 - 1 := by
  intro payout utxo stake proof checks chain
  have h : proof.verifyWithChain checks COIN chain 10 = .ok () := by decide
  have hcoins : ∀ o c, chain.coins o = some c → MoneyRange c.out.nValue = true := by
    intro o c hc
    by_cases ho : o ∈ [utxo 0, utxo 1]
    · simp only [chain, ho, if_true, Option.some.injEq] at hc
      subst hc
      decide
    · simp [chain, ho] at hc
  have hs : SupportedOn chain.coins {utxo 0, utxo 1} := by
    intro o ho
    by_cases hmem : o ∈ [utxo 0, utxo 1]
    · simpa using hmem
    · simp [chain, hmem] at ho
  have htotal : weightSum coinValue chain.coins {utxo 0, utxo 1} ≤ MAX_MONEY.amount := by
    rw [weightSum, Finset.sum_pair (by decide)]
    decide
  exact ⟨h, Proof.verifyWithChain_score hcoins hs htotal h⟩

end Score

/-- Two stakes that claim `INT64_MAX` each, as `SER_READ` reads them from the
amount bytes `ff ff ff ff ff ff ff 7f`, on distinct outpoints, paying out to a
P2PKH script, with the standardness of policy.cpp and a verifier that accepts
every signature: `verify` accepts the proof, yet the running total of
`computeScore`, which runs when the proof is read, and of `getStakedAmount`
overflows `int64_t`. -/
theorem Proof.computeScore_overflows :
    let stake (n : UInt32) : SignedStake := ⟨⟨⟨⟨0⟩, n⟩, ⟨2 ^ 63 - 1⟩, 0, [], StakeId.ZERO⟩, []⟩
    let payout : CScript := [0x76, 0xa9, 0x14] ++ List.replicate 20 0 ++ [0x88, 0xac]
    let proof : Proof := ⟨0, 0, [], [stake 0, stake 1], payout, []⟩
    let checks : ProofChecks :=
      ⟨fun s => (Script.IsStandard true Script.MAX_OP_RETURN_RELAY s).toOption == some true,
        fun _ => true, fun _ _ => true, fun _ => none, fun _ => 0⟩
    Script.IsStandard true Script.MAX_OP_RETURN_RELAY payout = .ok true ∧
      proof.verify checks ⟨100 * COIN.amount⟩ = .ok () ∧
      proof.computeScore = .error .overflow ∧ proof.getStakedAmount = .error .overflow :=
  ⟨by decide, by decide, rfl, rfl⟩

end Avalanche

end BitcoinAbc
