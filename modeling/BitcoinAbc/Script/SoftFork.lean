import Mathlib
import BitcoinAbc.Script.Interpreter

/-!
# Soft-fork safety of the restriction flags

Most verification flags were deployed as soft forks: a flag may only turn a
passing script into a failing one, never the other way round, and never change
what a passing script computes. This module proves it of the whole
interpreter.

The flags in question are `restrictionFlags`. Two flag sets are compared by
`FlagRestriction F G`: `F` is a subset of `G` and the two agree outside
`restrictionFlags`. The statement at each level is `Except.SuccLe`: a run
under `F` succeeds, with the same result, wherever the run under `G` does.

- The encoding checks and every opcode family are `SuccLe` in the flags; the
  proofs are `gcongr` walks of the family, which stop at the guards that read
  a restriction flag (`failIf_succLe`, `FlagRestriction.hasFlag_le`), at the
  operand decoding (`ofVch_succLe`) and at the few reads of flags outside the
  restriction set, which are equal (`FlagRestriction.hasFlag_eq`).
- The signature checker is passed the flags too; `SignatureHash` only reads
  `SCRIPT_ENABLE_SIGHASH_FORKID` and `SCRIPT_ENABLE_REPLAY_PROTECTION`, which
  is what `BaseSignatureChecker.ReadsNoRestrictionFlag` states.
- `EvalScript_succLe` lifts this to whole scripts through the loop.

`VerifyScript` is not `SuccLe`: with P2SH the redeem script also runs and its
sigchecks are counted, and the segwit-recovery exemption returns early. Its
soft-fork theorem (`VerifyScript_softFork`, at the end) compares successes
only, and uses that the scripts of a P2SH spend do no signature checks of
their own (`EvalScript_metrics_of_noSigOps`).
-/

namespace BitcoinAbc

namespace Script

open Except CScriptNum

/-! ## The restriction flags -/

/-- The flags that only restrict what scripts pass. -/
def restrictionFlags : UInt32 :=
  SCRIPT_VERIFY_P2SH ||| SCRIPT_VERIFY_STRICTENC ||| SCRIPT_VERIFY_DERSIG |||
    SCRIPT_VERIFY_LOW_S ||| SCRIPT_VERIFY_SIGPUSHONLY ||| SCRIPT_VERIFY_MINIMALDATA |||
    SCRIPT_VERIFY_DISCOURAGE_UPGRADABLE_NOPS ||| SCRIPT_VERIFY_CLEANSTACK |||
    SCRIPT_VERIFY_CHECKLOCKTIMEVERIFY ||| SCRIPT_VERIFY_CHECKSEQUENCEVERIFY |||
    SCRIPT_VERIFY_MINIMALIF ||| SCRIPT_VERIFY_NULLFAIL ||| SCRIPT_DISALLOW_SEGWIT_RECOVERY |||
    SCRIPT_VERIFY_INPUT_SIGCHECKS

/-- `F` is `G` with some restriction flags removed. -/
structure FlagRestriction (F G : UInt32) : Prop where
  subset : F &&& G = F
  agree : F &&& ~~~restrictionFlags = G &&& ~~~restrictionFlags

namespace FlagRestriction

variable {F G : UInt32}

/-- A flag seen in `F` is seen in `G`. -/
@[gcongr] theorem hasFlag_le (h : FlagRestriction F G) (f : UInt32) :
    hasFlag F f ≤ hasFlag G f := by
  intro hF
  simp only [hasFlag, bne_iff_ne, ne_eq] at hF ⊢
  exact UInt32.and_ne_zero_mono h.subset hF

/-- A flag outside the restriction set reads the same in `F` and `G`. -/
theorem hasFlag_eq (h : FlagRestriction F G) {f : UInt32}
    (hf : f &&& ~~~restrictionFlags = f) : hasFlag F f = hasFlag G f := by
  simp only [hasFlag, UInt32.and_eq_of_agree h.agree hf]

theorem forkId (h : FlagRestriction F G) :
    hasFlag F SCRIPT_ENABLE_SIGHASH_FORKID = hasFlag G SCRIPT_ENABLE_SIGHASH_FORKID :=
  h.hasFlag_eq (by decide)

theorem schnorrMultisig (h : FlagRestriction F G) :
    hasFlag F SCRIPT_ENABLE_SCHNORR_MULTISIG = hasFlag G SCRIPT_ENABLE_SCHNORR_MULTISIG :=
  h.hasFlag_eq (by decide)

/-- Adding the same flags to both sides, as `VerifyScript` adds STRICTENC. -/
theorem or (h : FlagRestriction F G) (f : UInt32) : FlagRestriction (F ||| f) (G ||| f) :=
  ⟨UInt32.or_subMask h.subset, UInt32.or_agree h.agree⟩

end FlagRestriction

/-- The checker's verdict does not depend on the restriction flags. -/
def BaseSignatureChecker.ReadsNoRestrictionFlag (checker : BaseSignatureChecker) : Prop :=
  ∀ vchSig vchPubKey scriptCode (F G : UInt32),
    F &&& ~~~restrictionFlags = G &&& ~~~restrictionFlags →
      checker.CheckSig vchSig vchPubKey scriptCode F = checker.CheckSig vchSig vchPubKey scriptCode G

/-- Two interpreter environments that differ in restriction flags only, with a
checker that does not read them. -/
inductive EvalEnv.Restricts : EvalEnv → EvalEnv → Prop
  | mk (crypto : Crypto) (checker : BaseSignatureChecker) {F G : UInt32}
      (hFG : FlagRestriction F G) (hcheck : checker.ReadsNoRestrictionFlag) :
      EvalEnv.Restricts ⟨crypto, F, checker⟩ ⟨crypto, G, checker⟩

namespace EvalEnv.Restricts

variable {eF eG : EvalEnv}

theorem flags (h : eF.Restricts eG) : FlagRestriction eF.flags eG.flags := by
  cases h with
  | mk crypto checker hFG hcheck => exact hFG

theorem crypto_eq (h : eF.Restricts eG) : eF.crypto = eG.crypto := by
  cases h with
  | mk crypto checker hFG hcheck => rfl

theorem checker_eq (h : eF.Restricts eG) : eF.checker = eG.checker := by
  cases h with
  | mk crypto checker hFG hcheck => rfl

@[gcongr] theorem fRequireMinimal_le (h : eF.Restricts eG) :
    eF.fRequireMinimal ≤ eG.fRequireMinimal :=
  h.flags.hasFlag_le _

end EvalEnv.Restricts

/-! ## Encoding checks -/

section Encodings

variable {F G : UInt32} (crypto : Crypto)

@[gcongr] theorem CheckRawECDSASignatureEncoding_succLe (h : FlagRestriction F G) (sig : valtype) :
    SuccLe (CheckRawECDSASignatureEncoding crypto sig F)
      (CheckRawECDSASignatureEncoding crypto sig G) := by
  unfold CheckRawECDSASignatureEncoding
  gcongr

@[gcongr] theorem CheckRawSignatureEncoding_succLe (h : FlagRestriction F G) (sig : valtype) :
    SuccLe (CheckRawSignatureEncoding crypto sig F) (CheckRawSignatureEncoding crypto sig G) := by
  unfold CheckRawSignatureEncoding
  gcongr

@[gcongr] theorem CheckDataSignatureEncoding_succLe (h : FlagRestriction F G) (sig : valtype) :
    SuccLe (CheckDataSignatureEncoding crypto sig F) (CheckDataSignatureEncoding crypto sig G) := by
  unfold CheckDataSignatureEncoding
  gcongr

/-- Under STRICTENC in `F` it is in `G` too, and the FORKID flag both read is
the same. -/
@[gcongr] theorem CheckSighashEncoding_succLe (h : FlagRestriction F G) (vchSig : valtype) :
    SuccLe (CheckSighashEncoding vchSig F) (CheckSighashEncoding vchSig G) := by
  unfold CheckSighashEncoding
  rw [h.forkId]
  cases hF : hasFlag F SCRIPT_VERIFY_STRICTENC
  · -- only `G` checks: `F` accepts whatever `G` does
    rintro ⟨⟩ -
    rfl
  · have hG : hasFlag G SCRIPT_VERIFY_STRICTENC = true := h.hasFlag_le _ hF
    simp only [hG, if_true]
    rfl

@[gcongr] theorem CheckTransactionSignatureEncoding_succLe (h : FlagRestriction F G)
    (vchSig : valtype) :
    SuccLe (CheckTransactionSignatureEncoding crypto vchSig F)
      (CheckTransactionSignatureEncoding crypto vchSig G) := by
  unfold CheckTransactionSignatureEncoding CheckTransactionSignatureEncodingImpl
  gcongr

@[gcongr] theorem CheckTransactionECDSASignatureEncoding_succLe (h : FlagRestriction F G)
    (vchSig : valtype) :
    SuccLe (CheckTransactionECDSASignatureEncoding crypto vchSig F)
      (CheckTransactionECDSASignatureEncoding crypto vchSig G) := by
  unfold CheckTransactionECDSASignatureEncoding CheckTransactionSignatureEncodingImpl
  gcongr

omit crypto in
@[gcongr] theorem CheckTransactionSchnorrSignatureEncoding_succLe (h : FlagRestriction F G)
    (vchSig : valtype) :
    SuccLe (CheckTransactionSchnorrSignatureEncoding vchSig F)
      (CheckTransactionSchnorrSignatureEncoding vchSig G) := by
  unfold CheckTransactionSchnorrSignatureEncoding CheckTransactionSignatureEncodingImpl
  gcongr

omit crypto in
@[gcongr] theorem CheckPubKeyEncoding_succLe (h : FlagRestriction F G) (vchPubKey : valtype) :
    SuccLe (CheckPubKeyEncoding vchPubKey F) (CheckPubKeyEncoding vchPubKey G) := by
  unfold CheckPubKeyEncoding
  gcongr

omit crypto in
/-- The script code a signature is checked against reads only the FORKID flag. -/
theorem CleanupScriptCode_eq (h : FlagRestriction F G) (scriptCode : CScript) (vchSig : valtype) :
    CleanupScriptCode scriptCode vchSig F = CleanupScriptCode scriptCode vchSig G := by
  unfold CleanupScriptCode
  rw [h.forkId]

end Encodings

/-! ## Opcode families

A family that reads `fRequireMinimal` only is `SuccLe` in it, for any two
values `a ≤ b`; one that reads the environment is `SuccLe` between two
environments that `Restricts`. -/

section Families

variable {a b : Bool}

@[gcongr] theorem opUpgradableNop_succLe {F G : UInt32} (h : FlagRestriction F G) :
    SuccLe (opUpgradableNop F) (opUpgradableNop G) := by
  unfold opUpgradableNop
  gcongr

@[gcongr] theorem opIf_succLe {F G : UInt32} (h : FlagRestriction F G) (notIf fExec : Bool)
    (st : EvalState) : SuccLe (opIf notIf F fExec st) (opIf notIf G fExec st) := by
  unfold opIf
  gcongr

@[gcongr] theorem opPickRoll_succLe (h : a ≤ b) (roll : Bool) (stack : List valtype) :
    SuccLe (opPickRoll roll a stack) (opPickRoll roll b stack) := by
  unfold opPickRoll
  gcongr

@[gcongr] theorem opUnaryNum_succLe (h : a ≤ b) (op : Opcode) (stack : List valtype) :
    SuccLe (opUnaryNum op a stack) (opUnaryNum op b stack) := by
  unfold opUnaryNum
  gcongr

@[gcongr] theorem opBinaryNum_succLe (h : a ≤ b) (op : Opcode) (stack : List valtype) :
    SuccLe (opBinaryNum op a stack) (opBinaryNum op b stack) := by
  unfold opBinaryNum
  gcongr

@[gcongr] theorem opWithin_succLe (h : a ≤ b) (stack : List valtype) :
    SuccLe (opWithin a stack) (opWithin b stack) := by
  unfold opWithin
  gcongr

@[gcongr] theorem opSplit_succLe (h : a ≤ b) (stack : List valtype) :
    SuccLe (opSplit a stack) (opSplit b stack) := by
  unfold opSplit
  gcongr

@[gcongr] theorem opNum2Bin_succLe (h : a ≤ b) (stack : List valtype) :
    SuccLe (opNum2Bin a stack) (opNum2Bin b stack) := by
  unfold opNum2Bin
  gcongr

/-- With MINIMALDATA the push must be minimal; without it there is no check. -/
@[gcongr] theorem pushData_succLe (h : a ≤ b) (ins : Instr) (st : EvalState) :
    SuccLe (pushData a ins st) (pushData b ins st) := by
  unfold pushData
  cases a with
  | false =>
    cases b with
    | false => rfl
    | true =>
      -- only the run under `b` checks the push
      intro v hv
      simp only [if_true, bind_eq_ok] at hv
      obtain ⟨-, -, -, -, hv⟩ := hv
      simpa using hv
  | true =>
    have hb : b = true := h rfl
    subst hb
    rfl

/-- The lock-time opcodes are `NOP`s without their flag: the run under `F`
skips the check whenever the run under `G` does. -/
@[gcongr] theorem opCheckLockTimeVerify_succLe {eF eG : EvalEnv} (h : eF.Restricts eG)
    (stack : List valtype) :
    SuccLe (opCheckLockTimeVerify eF stack) (opCheckLockTimeVerify eG stack) := by
  unfold opCheckLockTimeVerify
  rw [h.checker_eq]
  exact SuccLe.ite_pure_unit (Bool.not_le_not (h.flags.hasFlag_le _)) (by gcongr)

@[gcongr] theorem opCheckSequenceVerify_succLe {eF eG : EvalEnv} (h : eF.Restricts eG)
    (stack : List valtype) :
    SuccLe (opCheckSequenceVerify eF stack) (opCheckSequenceVerify eG stack) := by
  unfold opCheckSequenceVerify
  rw [h.checker_eq]
  exact SuccLe.ite_pure_unit (Bool.not_le_not (h.flags.hasFlag_le _)) (by gcongr)

end Families

/-! ## Signature opcodes

The checker gives the same verdict under `F` and `G`, the script code is
cleaned up the same way (`CleanupScriptCode_eq`), and the encoding checks and
NULLFAIL only fail more under `G`. -/

section Signatures

variable {eF eG : EvalEnv}

theorem EvalEnv.Restricts.checkSig (h : eF.Restricts eG) (vchSig vchPubKey : valtype)
    (scriptCode : CScript) :
    eF.checker.CheckSig vchSig vchPubKey scriptCode eF.flags =
      eG.checker.CheckSig vchSig vchPubKey scriptCode eG.flags := by
  cases h with
  | mk crypto checker hFG hcheck => exact hcheck _ _ _ _ _ hFG.agree

theorem EvalEnv.Restricts.cleanupScriptCode (h : eF.Restricts eG) (scriptCode : CScript)
    (vchSig : valtype) :
    CleanupScriptCode scriptCode vchSig eF.flags = CleanupScriptCode scriptCode vchSig eG.flags :=
  CleanupScriptCode_eq h.flags _ _

@[gcongr] theorem EvalChecksig_succLe (h : eF.Restricts eG) (vchSig vchPubKey : valtype)
    (scriptCode : CScript) (metrics : ScriptExecutionMetrics) :
    SuccLe (EvalChecksig eF vchSig vchPubKey scriptCode metrics)
      (EvalChecksig eG vchSig vchPubKey scriptCode metrics) := by
  unfold EvalChecksig
  simp only [h.cleanupScriptCode, h.checkSig, h.crypto_eq]
  have hFG := h.flags
  gcongr

@[gcongr] theorem opCheckSig_succLe (h : eF.Restricts eG) (verify : Bool) (st : EvalState) :
    SuccLe (opCheckSig verify eF st) (opCheckSig verify eG st) := by
  unfold opCheckSig
  gcongr

@[gcongr] theorem opCheckDataSig_succLe (h : eF.Restricts eG) (verify : Bool) (st : EvalState) :
    SuccLe (opCheckDataSig verify eF st) (opCheckDataSig verify eG st) := by
  unfold opCheckDataSig
  rw [h.checker_eq, h.crypto_eq]
  dsimp only
  have hFG := h.flags
  gcongr

/-- The Schnorr multisig loop, one signature per step. -/
@[gcongr] theorem schnorrMultisigLoop_succLe (hR : eF.Restricts eG) (stack : List valtype)
    (scriptCode : CScript) (checkBits nKeysCount idxBottomSig idxBottomKey : Nat) :
    ∀ k iSig iKey metrics,
      SuccLe (schnorrMultisigLoop eF stack scriptCode checkBits nKeysCount
          idxBottomSig idxBottomKey k iSig iKey metrics)
        (schnorrMultisigLoop eG stack scriptCode checkBits nKeysCount
          idxBottomSig idxBottomKey k iSig iKey metrics)
  | 0, _, _, _ => SuccLe.refl _
  | k + 1, iSig, iKey, metrics => by
    unfold schnorrMultisigLoop
    simp only [hR.checkSig]
    have hFG := hR.flags
    gcongr
    exact schnorrMultisigLoop_succLe hR stack scriptCode checkBits nKeysCount
      idxBottomSig idxBottomKey k _ _ _

/-- The legacy multisig loop, by induction on the keys left. -/
@[gcongr] theorem legacyMultisigLoop_succLe (h : eF.Restricts eG) (stack : List valtype)
    (scriptCode : CScript) (idxTopSig idxTopKey nSigsCount nKeysCount : Nat)
    (nSigsRemaining nKeysRemaining : Nat) (hinv : nSigsRemaining ≤ nKeysRemaining) :
    SuccLe (legacyMultisigLoop eF stack scriptCode idxTopSig idxTopKey
        nSigsCount nKeysCount nSigsRemaining nKeysRemaining hinv)
      (legacyMultisigLoop eG stack scriptCode idxTopSig idxTopKey
        nSigsCount nKeysCount nSigsRemaining nKeysRemaining hinv) := by
  induction nKeysRemaining using Nat.strongRecOn generalizing nSigsRemaining with
  | ind nKeysRemaining ih =>
    unfold legacyMultisigLoop
    simp only [h.checkSig, h.crypto_eq]
    have hFG := h.flags
    gcongr
    -- the recursive call has one key less
    exact ih _ (by omega) _ _

@[gcongr] theorem legacyMultisig_succLe (h : eF.Restricts eG) (stack : List valtype)
    (scriptCode : CScript) (idxTopKey idxTopSig nKeysCount nSigsCount : Nat)
    (hcount : nSigsCount ≤ nKeysCount) (metrics : ScriptExecutionMetrics) :
    SuccLe (legacyMultisig eF stack scriptCode idxTopKey idxTopSig nKeysCount
        nSigsCount hcount metrics)
      (legacyMultisig eG stack scriptCode idxTopKey idxTopSig nKeysCount
        nSigsCount hcount metrics) := by
  unfold legacyMultisig
  simp only [h.cleanupScriptCode]
  have hFG := h.flags
  gcongr

@[gcongr] theorem schnorrMultisig_succLe (h : eF.Restricts eG) (stack : List valtype)
    (scriptCode : CScript) (idxTopKey idxTopSig idxDummy nKeysCount nSigsCount : Nat)
    (metrics : ScriptExecutionMetrics) :
    SuccLe (schnorrMultisig eF stack scriptCode idxTopKey idxTopSig idxDummy
        nKeysCount nSigsCount metrics)
      (schnorrMultisig eG stack scriptCode idxTopKey idxTopSig idxDummy
        nKeysCount nSigsCount metrics) := by
  unfold schnorrMultisig
  dsimp only
  gcongr

/-- The Schnorr path is taken under the same condition on both sides: the
SCHNORR_MULTISIG flag is not a restriction flag. -/
@[gcongr] theorem opCheckMultiSig_succLe (h : eF.Restricts eG) (verify : Bool)
    (st : EvalState) :
    SuccLe (opCheckMultiSig verify eF st) (opCheckMultiSig verify eG st) := by
  unfold opCheckMultiSig
  simp only [h.flags.schnorrMultisig]
  gcongr

end Signatures

/-! ## The interpreter -/

@[gcongr] theorem onStack_succLe {f g : List valtype → Except Thrown (List valtype)}
    (hfg : ∀ stack, SuccLe (f stack) (g stack)) (st : EvalState) :
    SuccLe (onStack st f) (onStack st g) := by
  unfold onStack
  gcongr
  exact hfg _

/-- The `switch`: a case split on the opcode, each case one family lemma. -/
@[gcongr] theorem execOpcode_succLe {eF eG : EvalEnv} (h : eF.Restricts eG) (opcode : UInt8)
    (nextPc : CScript) (fExec : Bool) (st : EvalState) :
    SuccLe (execOpcode eF opcode nextPc fExec st) (execOpcode eG opcode nextPc fExec st) := by
  unfold execOpcode
  rw [h.crypto_eq]
  have hFG := h.flags
  split
  all_goals gcongr

/-- One iteration of the loop. -/
@[gcongr] theorem step_succLe {eF eG : EvalEnv} (h : eF.Restricts eG) (st : EvalState)
    (ins : Instr) : SuccLe (step eF st ins) (step eG st ins) := by
  unfold step
  dsimp only
  gcongr

/-- The loop over the decoded script. -/
theorem evalScriptBody_succLe {eF eG : EvalEnv} (h : eF.Restricts eG) (script : CScript)
    (init : EvalState) : SuccLe (evalScriptBody eF script init) (evalScriptBody eG script init) := by
  unfold evalScriptBody
  gcongr

/-- `EvalScript` under fewer restriction flags succeeds, with the same final
stack and metrics, wherever it succeeds under more. -/
theorem EvalScript_succLe (crypto : Crypto) (checker : BaseSignatureChecker) {F G : UInt32}
    (hFG : FlagRestriction F G) (hcheck : checker.ReadsNoRestrictionFlag)
    (stack : List valtype) (script : CScript) (metrics : ScriptExecutionMetrics) :
    SuccLe (EvalScript crypto stack script F checker metrics)
      (EvalScript crypto stack script G checker metrics) := by
  have hbody := evalScriptBody_succLe (.mk crypto checker hFG hcheck) script
    { stack := stack, pbegincodehash := script, metrics := metrics }
  intro v hv
  unfold EvalScript at hv ⊢
  split at hv
  · cases hv
  · rename_i hsize
    rw [if_neg hsize]
    -- only a successful body can make `EvalScript` succeed, and the body under
    -- `F` then has the same final state
    split at hv
    · cases hv
    · cases hv
    · rename_i st hst
      rw [hbody st hst]
      exact hv

/-! ## Sigchecks happen at signature opcodes only -/

/-- The opcodes that run a signature check and count it in the metrics. -/
def Opcode.isSigOp : Opcode → Bool
  | .OP_CHECKSIG | .OP_CHECKSIGVERIFY | .OP_CHECKDATASIG | .OP_CHECKDATASIGVERIFY
  | .OP_CHECKMULTISIG | .OP_CHECKMULTISIGVERIFY => true
  | _ => false

section Metrics

theorem onStack_metrics {st st' : EvalState} {f : List valtype → Except Thrown (List valtype)}
    (h : onStack st f = .ok st') : st'.metrics = st.metrics := by
  unfold onStack at h
  simp only [bind_eq_ok, pure_eq_ok] at h
  obtain ⟨_, -, rfl⟩ := h
  rfl

theorem opIf_metrics {st st' : EvalState} {notIf fExec : Bool} {flags : UInt32}
    (h : opIf notIf flags fExec st = .ok st') : st'.metrics = st.metrics := by
  unfold opIf at h
  dsimp only at h
  split at h
  · rw [← pure_eq_ok.mp h]
  · simp only [bind_eq_ok, pure_eq_ok] at h
    obtain ⟨_, -, _, -, _, -, _, -, _, -, rfl⟩ := h
    rfl

theorem opElse_metrics {st st' : EvalState} (h : opElse st = .ok st') : st'.metrics = st.metrics := by
  unfold opElse at h
  simp only [bind_eq_ok, pure_eq_ok] at h
  obtain ⟨_, -, _, -, rfl⟩ := h
  rfl

theorem opEndIf_metrics {st st' : EvalState} (h : opEndIf st = .ok st') : st'.metrics = st.metrics := by
  unfold opEndIf at h
  simp only [bind_eq_ok, pure_eq_ok] at h
  obtain ⟨_, -, _, -, rfl⟩ := h
  rfl

theorem opToAltStack_metrics {st st' : EvalState} (h : opToAltStack st = .ok st') : st'.metrics = st.metrics := by
  unfold opToAltStack at h
  simp only [bind_eq_ok, pure_eq_ok] at h
  obtain ⟨_, -, _, -, _, -, rfl⟩ := h
  rfl

theorem opFromAltStack_metrics {st st' : EvalState} (h : opFromAltStack st = .ok st') : st'.metrics = st.metrics := by
  unfold opFromAltStack at h
  simp only [bind_eq_ok, pure_eq_ok] at h
  obtain ⟨_, -, _, -, _, -, rfl⟩ := h
  rfl

/-- A check that returns the state it was given. -/
theorem bind_pure_metrics {st st' : EvalState} {m : Except Thrown Unit} (h : (m >>= fun _ => pure st) = .ok st') :
    st'.metrics = st.metrics := by
  simp only [bind_eq_ok, pure_eq_ok] at h
  obtain ⟨_, -, rfl⟩ := h
  rfl

/-- The signature opcodes are bytes `0xac` to `0xbb`. -/
theorem Opcode.isSigOp_ofByte {b : UInt8} (h : (Opcode.ofByte b).isSigOp = true) :
    0xac ≤ b.toNat ∧ b.toNat ≤ 0xbb := by
  unfold Opcode.ofByte at h
  split at h <;> simp_all [Opcode.isSigOp]

/-- Every opcode but the signature opcodes keeps the metrics. -/
theorem execOpcode_metrics {st st' : EvalState} {env : EvalEnv} {opcode : UInt8} {nextPc : CScript} {fExec : Bool}
    (hop : (Opcode.ofByte opcode).isSigOp = false)
    (h : execOpcode env opcode nextPc fExec st = .ok st') : st'.metrics = st.metrics := by
  unfold execOpcode at h
  split at h
  all_goals first
    | exact onStack_metrics h
    | exact bind_pure_metrics h
    | exact opIf_metrics h
    | exact opElse_metrics h
    | exact opEndIf_metrics h
    | exact opToAltStack_metrics h
    | exact opFromAltStack_metrics h
    | (cases h; rfl)
    | simp_all [Opcode.isSigOp, setError]

theorem pushData_metrics {st st' : EvalState} {fRequireMinimal : Bool} {ins : Instr}
    (h : pushData fRequireMinimal ins st = .ok st') : st'.metrics = st.metrics := by
  unfold pushData at h
  dsimp only at h
  split at h
  · simp only [bind_eq_ok, pure_eq_ok] at h
    obtain ⟨_, -, _, -, rfl⟩ := h
    rfl
  · rw [← pure_eq_ok.mp h]

theorem step_metrics {st st' : EvalState} {env : EvalEnv} {ins : Instr} (hop : (Opcode.ofByte ins.opcode).isSigOp = false)
    (h : step env st ins = .ok st') : st'.metrics = st.metrics := by
  unfold step at h
  dsimp only at h
  simp only [bind_eq_ok] at h
  obtain ⟨_, -, _, -, _, -, h⟩ := h
  -- the push, the `switch` or nothing, each followed by the stack-size check
  split at h
  · simp only [bind_eq_ok, pure_eq_ok] at h
    obtain ⟨st₁, h₁, _, -, rfl⟩ := h
    -- the op count changed, the metrics did not
    have hm := pushData_metrics h₁
    exact hm
  · split at h
    · simp only [bind_eq_ok, pure_eq_ok] at h
      obtain ⟨st₁, h₁, _, -, rfl⟩ := h
      have hm := execOpcode_metrics hop h₁
      exact hm
    · simp only [bind_eq_ok, pure_eq_ok] at h
      obtain ⟨_, rfl, _, -, rfl⟩ := h
      rfl

/-- The instructions of `s` include no signature opcode. -/
def NoSigOps (s : CScript) : Prop :=
  ∀ ins ∈ (parseScript s).1, (Opcode.ofByte ins.opcode).isSigOp = false

/-- A script without signature opcodes leaves the metrics as they were. -/
theorem EvalScript_metrics_of_noSigOps {crypto : Crypto} {stack stack' : List valtype}
    {script : CScript} {flags : UInt32} {checker : BaseSignatureChecker}
    {metrics metrics' : ScriptExecutionMetrics} (hs : NoSigOps script)
    (h : EvalScript crypto stack script flags checker metrics = .ok (stack', metrics')) :
    metrics' = metrics := by
  unfold EvalScript at h
  split at h
  · cases h
  · split at h
    · cases h
    · cases h
    · rename_i st hst
      split at h
      · cases h
      · cases h
        unfold evalScriptBody at hst
        simp only [bind_eq_ok, pure_eq_ok] at hst
        obtain ⟨st₁, hfold, _, -, rfl⟩ := hst
        -- the metrics are the initial ones in every state of the loop
        exact foldlM_inv (fun st : EvalState => st.metrics = metrics) _
          (fun s ins s' hins hs' hstep => (step_metrics (hs ins hins) hstep).trans hs') _ _ rfl hfold

/-- A push-only script has no signature opcode. -/
theorem IsPushOnly_noSigOps {s : CScript} (h : IsPushOnly s = true) : NoSigOps s := by
  intro ins hins
  have hle : ins.opcode.toNat ≤ 0x60 := IsPushOnly_opcodes s h ins hins
  cases hsig : (Opcode.ofByte ins.opcode).isSigOp with
  | false => rfl
  | true =>
    have := Opcode.isSigOp_ofByte hsig
    omega

/-- A P2SH script is `OP_HASH160 <20 bytes> OP_EQUAL`. -/
theorem IsPayToScriptHash_noSigOps {s : CScript} (h : IsPayToScriptHash s = true) :
    NoSigOps s := by
  intro ins hins
  have hop : ins.opcode ∈ (parseScript s).1.map Instr.opcode := List.mem_map_of_mem hins
  rw [parseScript_of_isPayToScriptHash h] at hop
  simp only [List.mem_cons, List.not_mem_nil, or_false] at hop
  rcases hop with hop | hop | hop <;> rw [hop] <;> decide

end Metrics

/-! ## `VerifyScript` -/

/-- The rule that makes `VerifyScript`'s `assert` hold: CLEANSTACK is only
used together with P2SH. -/
def CleanStackNeedsP2SH (flags : UInt32) : Prop :=
  hasFlag flags SCRIPT_VERIFY_CLEANSTACK = true → hasFlag flags SCRIPT_VERIFY_P2SH = true

section Verify

variable {F G : UInt32}

/-- `VerifyScript` turns on STRICTENC together with FORKID, which is the same
in `F` and `G`. -/
theorem FlagRestriction.forkIdStrictEnc (h : FlagRestriction F G) :
    FlagRestriction
      (if hasFlag F SCRIPT_ENABLE_SIGHASH_FORKID then F ||| SCRIPT_VERIFY_STRICTENC else F)
      (if hasFlag G SCRIPT_ENABLE_SIGHASH_FORKID then G ||| SCRIPT_VERIFY_STRICTENC else G) := by
  rw [h.forkId]
  split
  · exact h.or _
  · exact h

theorem CleanStackNeedsP2SH.forkIdStrictEnc (hF : CleanStackNeedsP2SH F) :
    CleanStackNeedsP2SH
      (if hasFlag F SCRIPT_ENABLE_SIGHASH_FORKID then F ||| SCRIPT_VERIFY_STRICTENC else F) := by
  split
  · -- STRICTENC is neither CLEANSTACK nor P2SH
    simp only [CleanStackNeedsP2SH, hasFlag,
      UInt32.or_and_of_and_eq_zero (by decide : SCRIPT_VERIFY_STRICTENC &&& SCRIPT_VERIFY_CLEANSTACK = 0),
      UInt32.or_and_of_and_eq_zero (by decide : SCRIPT_VERIFY_STRICTENC &&& SCRIPT_VERIFY_P2SH = 0)]
    exact hF
  · exact hF

/-- What the final checks of `VerifyScript` accept. -/
theorem verifyCleanStackAndSigChecks_eq_ok {scriptSig : CScript} {flags : UInt32}
    {stack : List valtype} {metrics m : ScriptExecutionMetrics} :
    verifyCleanStackAndSigChecks scriptSig flags stack metrics = .ok m ↔
      (hasFlag flags SCRIPT_VERIFY_CLEANSTACK = true →
        hasFlag flags SCRIPT_VERIFY_P2SH = true ∧ stack.length = 1) ∧
      ¬ (hasFlag flags SCRIPT_VERIFY_INPUT_SIGCHECKS = true ∧
        (scriptSig.length : Int) < metrics.nSigChecks * 43 - 60) ∧
      m = metrics := by
  unfold verifyCleanStackAndSigChecks
  dsimp only
  cases hc : hasFlag flags SCRIPT_VERIFY_CLEANSTACK <;>
    simp only [Bool.false_eq_true, if_true, if_false, bind_eq_ok, failIf_eq_ok, assert_eq_ok,
      pure_eq_ok, decide_eq_false_iff_not, Bool.and_eq_false_iff, forall_const]
  -- what is left is propositional
  all_goals grind

theorem verifyCleanStackAndSigChecks_succLe (hFG : FlagRestriction F G)
    (hF : CleanStackNeedsP2SH F) (scriptSig : CScript) (stack : List valtype)
    (metrics : ScriptExecutionMetrics) :
    SuccLe (verifyCleanStackAndSigChecks scriptSig F stack metrics)
      (verifyCleanStackAndSigChecks scriptSig G stack metrics) := by
  intro m hm
  rw [verifyCleanStackAndSigChecks_eq_ok] at hm ⊢
  obtain ⟨hclean, hsig, rfl⟩ := hm
  refine ⟨fun hc => ⟨hF hc, (hclean (hFG.hasFlag_le _ hc)).2⟩, ?_, rfl⟩
  rintro ⟨hs, hlt⟩
  exact hsig ⟨hFG.hasFlag_le _ hs, hlt⟩

/-- The P2SH stage only passes a push-only `scriptSig`. -/
theorem verifyP2SH_isPushOnly {crypto : Crypto} {scriptSig : CScript} {flags : UInt32}
    {checker : BaseSignatureChecker} {stackCopy : List valtype}
    {metrics m : ScriptExecutionMetrics}
    (h : verifyP2SH crypto scriptSig flags checker stackCopy metrics = .ok m) :
    IsPushOnly scriptSig = true := by
  unfold verifyP2SH at h
  simp only [bind_eq_ok] at h
  obtain ⟨_, hpush, -⟩ := h
  simpa using hpush

/-- The P2SH stage succeeds under `F` wherever it does under `G`: the
segwit-recovery exemption is taken under `F` whenever under `G` (and then
succeeds), and otherwise the redeem script runs the same way. -/
theorem verifyP2SH_softFork (crypto : Crypto) (checker : BaseSignatureChecker)
    (hFG : FlagRestriction F G) (hF : CleanStackNeedsP2SH F)
    (hcheck : checker.ReadsNoRestrictionFlag) (scriptSig : CScript) (stackCopy : List valtype)
    (metrics : ScriptExecutionMetrics)
    (hG : ∃ m, verifyP2SH crypto scriptSig G checker stackCopy metrics = .ok m) :
    ∃ m, verifyP2SH crypto scriptSig F checker stackCopy metrics = .ok m := by
  obtain ⟨m, hm⟩ := hG
  unfold verifyP2SH at hm ⊢
  dsimp only at hm ⊢
  simp only [bind_eq_ok] at hm
  obtain ⟨_, hpush, _, hassert, stack, hpop, hm⟩ := hm
  simp only [hpush, hassert, hpop, ok_bind]
  by_cases hexit : (!hasFlag F SCRIPT_DISALLOW_SEGWIT_RECOVERY && stack.isEmpty &&
      IsWitnessProgram (stackCopy.getLast?.getD [])) = true
  · rw [if_pos hexit]
    exact ⟨metrics, rfl⟩
  · -- then `G` did not take the exemption either
    have hle : (!hasFlag G SCRIPT_DISALLOW_SEGWIT_RECOVERY && stack.isEmpty &&
        IsWitnessProgram (stackCopy.getLast?.getD [])) ≤
        (!hasFlag F SCRIPT_DISALLOW_SEGWIT_RECOVERY && stack.isEmpty &&
        IsWitnessProgram (stackCopy.getLast?.getD [])) := by gcongr
    rw [if_neg hexit]
    rw [if_neg fun hG => hexit (hle hG)] at hm
    refine ⟨m, SuccLe.bind (EvalScript_succLe crypto checker hFG hcheck _ _ _) (fun x => ?_) m hm⟩
    exact SuccLe.bind_right _ fun _ => SuccLe.bind_right _ fun _ =>
      verifyCleanStackAndSigChecks_succLe hFG hF _ _ _

end Verify

/-- Soft-fork safety of `VerifyScript`: removing restriction flags never turns
a successful verification into a failure, when the smaller flag set keeps the
CLEANSTACK ⇒ P2SH rule and the checker does not read the restriction flags. -/
theorem VerifyScript_softFork (crypto : Crypto) (scriptSig scriptPubKey : CScript)
    (checker : BaseSignatureChecker) {F G : UInt32} (hFG : FlagRestriction F G)
    (hF : CleanStackNeedsP2SH F) (hcheck : checker.ReadsNoRestrictionFlag)
    (hG : ∃ m, VerifyScript crypto scriptSig scriptPubKey G checker = .ok m) :
    ∃ m, VerifyScript crypto scriptSig scriptPubKey F checker = .ok m := by
  obtain ⟨m, hm⟩ := hG
  unfold VerifyScript at hm ⊢
  have hFG' := hFG.forkIdStrictEnc
  have hF' := hF.forkIdStrictEnc
  generalize (if hasFlag F SCRIPT_ENABLE_SIGHASH_FORKID then F ||| SCRIPT_VERIFY_STRICTENC
    else F) = F' at hFG' hF' ⊢
  generalize (if hasFlag G SCRIPT_ENABLE_SIGHASH_FORKID then G ||| SCRIPT_VERIFY_STRICTENC
    else G) = G' at hFG' hm
  dsimp only at hm ⊢
  simp only [bind_eq_ok] at hm
  obtain ⟨_, hpush, r₁, h₁, r₂, h₂, _, hempty, _, hcast, htail⟩ := hm
  -- up to the P2SH stage, `F'` runs as `G'` did
  have hpushF := failIf_succLe (show (hasFlag F' SCRIPT_VERIFY_SIGPUSHONLY && !IsPushOnly scriptSig) ≤
    (hasFlag G' SCRIPT_VERIFY_SIGPUSHONLY && !IsPushOnly scriptSig) by gcongr) _ _ hpush
  have h₁F := EvalScript_succLe crypto checker hFG' hcheck _ _ _ _ h₁
  have h₂F := EvalScript_succLe crypto checker hFG' hcheck _ _ _ _ h₂
  simp only [hpushF, h₁F, h₂F, hempty, hcast, ok_bind]
  have hle : (hasFlag F' SCRIPT_VERIFY_P2SH && IsPayToScriptHash scriptPubKey) ≤
      (hasFlag G' SCRIPT_VERIFY_P2SH && IsPayToScriptHash scriptPubKey) := by gcongr
  by_cases hp2sh : (hasFlag G' SCRIPT_VERIFY_P2SH && IsPayToScriptHash scriptPubKey) = true
  · rw [if_pos hp2sh] at htail
    by_cases hpF : (hasFlag F' SCRIPT_VERIFY_P2SH && IsPayToScriptHash scriptPubKey) = true
    · rw [if_pos hpF]
      exact verifyP2SH_softFork crypto checker hFG' hF' hcheck _ _ _ ⟨m, htail⟩
    · -- `F'` has no P2SH, hence no CLEANSTACK, and the sigchecks so far are
      -- none: `scriptSig` is push-only and `scriptPubKey` is P2SH
      rw [if_neg hpF]
      have hisP2SH : IsPayToScriptHash scriptPubKey = true := (Bool.and_eq_true _ _ ▸ hp2sh).2
      have hnoP2SH : hasFlag F' SCRIPT_VERIFY_P2SH = false := by simpa [hisP2SH] using hpF
      have hpushOnly : IsPushOnly scriptSig = true := verifyP2SH_isPushOnly htail
      have hm₁ : r₁.2 = {} := EvalScript_metrics_of_noSigOps (IsPushOnly_noSigOps hpushOnly) h₁
      have hm₂ : r₂.2 = r₁.2 := EvalScript_metrics_of_noSigOps (IsPayToScriptHash_noSigOps hisP2SH) h₂
      refine ⟨r₂.2, verifyCleanStackAndSigChecks_eq_ok.mpr ⟨fun hc => ?_, ?_, rfl⟩⟩
      · rw [hF' hc] at hnoP2SH
        cases hnoP2SH
      · rintro ⟨-, hlt⟩
        rw [hm₂, hm₁] at hlt
        simp at hlt
        omega
  · rw [if_neg hp2sh] at htail
    rw [if_neg fun hpF => hp2sh (hle hpF)]
    exact ⟨m, verifyCleanStackAndSigChecks_succLe hFG' hF' _ _ _ m htail⟩

/-- A P2SH spend of a 20-byte redeem script (hashes are the identity here)
still verifies once P2SH is dropped: then only the hash comparison runs. -/
theorem VerifyScript_softFork_dropP2SH :
    FlagRestriction SCRIPT_VERIFY_STRICTENC (SCRIPT_VERIFY_P2SH ||| SCRIPT_VERIFY_STRICTENC) ∧
      CleanStackNeedsP2SH SCRIPT_VERIFY_STRICTENC ∧
      BaseSignatureChecker.ReadsNoRestrictionFlag
        ⟨fun _ _ _ => false, fun _ _ _ _ => false, fun _ => false, fun _ => false⟩ ∧
      ∃ m, VerifyScript ⟨id, id, id, fun _ => true⟩ (0x14 :: List.replicate 20 0x51)
        ([0xa9, 0x14] ++ List.replicate 20 0x51 ++ [0x87]) SCRIPT_VERIFY_STRICTENC
        ⟨fun _ _ _ => false, fun _ _ _ _ => false, fun _ => false, fun _ => false⟩ = .ok m := by
  have hFG : FlagRestriction SCRIPT_VERIFY_STRICTENC
      (SCRIPT_VERIFY_P2SH ||| SCRIPT_VERIFY_STRICTENC) := ⟨by decide, by decide⟩
  have hF : CleanStackNeedsP2SH SCRIPT_VERIFY_STRICTENC := fun h => absurd h (by decide)
  have hcheck : BaseSignatureChecker.ReadsNoRestrictionFlag
      ⟨fun _ _ _ => false, fun _ _ _ _ => false, fun _ => false, fun _ => false⟩ :=
    fun _ _ _ _ _ _ => rfl
  exact ⟨hFG, hF, hcheck, VerifyScript_softFork _ _ _ _ hFG hF hcheck ⟨{}, by decide +kernel⟩⟩

end Script

end BitcoinAbc
