import Mathlib
import BitcoinAbc.Script.Machine

/-!
# `EvalScript` and `VerifyScript` (script/interpreter.cpp)

The interpreter, one definition per `case` group of `EvalScript`'s `switch`
(a group shares a body in the source: the unary numeric opcodes, the binary
ones, the hashes, ...), then the loop and the two entry points.

- `execOpcode` is the `switch`; `step` is one iteration of the `while (pc <
  pend)` loop: the push-size, op-count and disabled-opcode checks, the push or
  the `switch`, and the stack-size limit.
- `evalScriptBody` is the `try` block: decode the script (`parseScript`), run
  the instructions, fail with `BAD_OPCODE` where decoding stopped early.
  `EvalScript` turns a caught exception into `UNKNOWN` and checks that every
  `IF` was closed.
- `VerifyScript` evaluates `scriptSig` then `scriptPubKey` on one stack, and
  the redeem script of a P2SH spend, with the segwit-recovery exception, the
  CLEANSTACK rule and the sigcheck density rule.

Each family reads of the flags only what its source reads: most read nothing,
the numeric ones read `fRequireMinimal`, the signature ones the whole mask.
-/

namespace BitcoinAbc

namespace Script

open CScriptNum

/-- What `EvalScript` reads besides its local state: the crypto primitives, the
verification flags and the signature checker. -/
structure EvalEnv where
  crypto : Crypto
  flags : UInt32
  checker : BaseSignatureChecker

/-- `fRequireMinimal = (flags & SCRIPT_VERIFY_MINIMALDATA) != 0`. -/
def EvalEnv.fRequireMinimal (env : EvalEnv) : Bool :=
  hasFlag env.flags SCRIPT_VERIFY_MINIMALDATA

/-- `CTxIn::SEQUENCE_LOCKTIME_DISABLE_FLAG`, `1 << 31`. -/
def SEQUENCE_LOCKTIME_DISABLE_FLAG : Nat := 2 ^ 31

/-- `CleanupScriptCode`: drop the signature from the script code when
`SIGHASH_FORKID` is not used. -/
def CleanupScriptCode (scriptCode : CScript) (vchSig : valtype) (flags : UInt32) : CScript :=
  if !hasFlag flags SCRIPT_ENABLE_SIGHASH_FORKID || !(GetHashType vchSig).hasForkId then
    (FindAndDelete scriptCode (pushBytes vchSig)).1
  else scriptCode

/-- Push a script number. -/
def pushNum (stack : List valtype) (bn : CScriptNum) : List valtype := stack ++ [bn.getvch]

/-- A boolean result: `fValue ? vchTrue : vchFalse`. -/
def boolVch (b : Bool) : valtype := if b then vchTrue else vchFalse

/-- The `uint64_t` a `getint()` result converts to. -/
def toUInt64 (n : Int) : Nat := if n < 0 then (2 ^ 64 + n).toNat else n.toNat

/-! ## Pushes and control -/

/-- `OP_1NEGATE`, `OP_1` … `OP_16`: push `opcode - (OP_1 - 1)`. -/
def opPushValue (opcode : UInt8) (stack : List valtype) : List valtype :=
  pushNum stack ⟨(opcode.toNat : Int) - (0x51 - 1)⟩

/-- `OP_CHECKLOCKTIMEVERIFY`: a `NOP` without its flag. -/
def opCheckLockTimeVerify (env : EvalEnv) (stack : List valtype) : Except Thrown Unit := do
  if !hasFlag env.flags SCRIPT_VERIFY_CHECKLOCKTIMEVERIFY then return
  failIf (stack.length < 1) .INVALID_STACK_OPERATION
  -- 5-byte operands, so that the lock time does not end in 2038
  let nLockTime ← ofVch (← stacktop stack (-1)) env.fRequireMinimal 5
  failIf (nLockTime.m_value < 0) .NEGATIVE_LOCKTIME
  failIf (!env.checker.CheckLockTime nLockTime) .UNSATISFIED_LOCKTIME

/-- `OP_CHECKSEQUENCEVERIFY`: a `NOP` without its flag, or when the operand
has the disable flag set. -/
def opCheckSequenceVerify (env : EvalEnv) (stack : List valtype) : Except Thrown Unit := do
  if !hasFlag env.flags SCRIPT_VERIFY_CHECKSEQUENCEVERIFY then return
  failIf (stack.length < 1) .INVALID_STACK_OPERATION
  let nSequence ← ofVch (← stacktop stack (-1)) env.fRequireMinimal 5
  failIf (nSequence.m_value < 0) .NEGATIVE_LOCKTIME
  -- `nSequence & SEQUENCE_LOCKTIME_DISABLE_FLAG` on a non-negative value
  if nSequence.m_value.toNat.testBit 31 then return
  failIf (!env.checker.CheckSequence nSequence) .UNSATISFIED_LOCKTIME

/-- `OP_NOP1`, `OP_NOP4` … `OP_NOP10`. -/
def opUpgradableNop (flags : UInt32) : Except Thrown Unit :=
  failIf (hasFlag flags SCRIPT_VERIFY_DISCOURAGE_UPGRADABLE_NOPS) .DISCOURAGE_UPGRADABLE_NOPS

/-- `OP_IF` / `OP_NOTIF`: in an executed branch, pop the condition (exactly
`0x01` or empty under MINIMALIF); in a skipped one, push a false level. -/
def opIf (notIf : Bool) (flags : UInt32) (fExec : Bool) (st : EvalState) :
    Except Thrown EvalState := do
  if !fExec then return { st with vfExec := st.vfExec.push_back false }
  failIf (st.stack.length < 1) .UNBALANCED_CONDITIONAL
  let vch ← stacktop st.stack (-1)
  -- under MINIMALIF the condition is empty or exactly `0x01`
  failIf (hasFlag flags SCRIPT_VERIFY_MINIMALIF && vch.length > 1) .MINIMALIF
  failIf (hasFlag flags SCRIPT_VERIFY_MINIMALIF && vch.length == 1 && vch.getD 0 0 != 1)
    .MINIMALIF
  let fValue := if notIf then !CastToBool vch else CastToBool vch
  let stack ← popstack st.stack
  return { st with stack := stack, vfExec := st.vfExec.push_back fValue }

/-- `OP_ELSE`. -/
def opElse (st : EvalState) : Except Thrown EvalState := do
  failIf (st.vfExec.empty) .UNBALANCED_CONDITIONAL
  return { st with vfExec := ← st.vfExec.toggle_top }

/-- `OP_ENDIF`. -/
def opEndIf (st : EvalState) : Except Thrown EvalState := do
  failIf (st.vfExec.empty) .UNBALANCED_CONDITIONAL
  return { st with vfExec := ← st.vfExec.pop_back }

/-- `OP_VERIFY`. -/
def opVerify (stack : List valtype) : Except Thrown (List valtype) := do
  failIf (stack.length < 1) .INVALID_STACK_OPERATION
  if CastToBool (← stacktop stack (-1)) then popstack stack else setError .VERIFY

/-! ## Stack operations -/

/-- `OP_TOALTSTACK`. -/
def opToAltStack (st : EvalState) : Except Thrown EvalState := do
  failIf (st.stack.length < 1) .INVALID_STACK_OPERATION
  let altstack := st.altstack ++ [← stacktop st.stack (-1)]
  return { st with stack := ← popstack st.stack, altstack := altstack }

/-- `OP_FROMALTSTACK`. -/
def opFromAltStack (st : EvalState) : Except Thrown EvalState := do
  failIf (st.altstack.length < 1) .INVALID_ALTSTACK_OPERATION
  let stack := st.stack ++ [← stacktop st.altstack (-1)]
  return { st with stack := stack, altstack := ← popstack st.altstack }

/-- `OP_2DROP`. -/
def op2Drop (stack : List valtype) : Except Thrown (List valtype) := do
  failIf (stack.length < 2) .INVALID_STACK_OPERATION
  popstack (← popstack stack)

/-- `OP_2DUP`. -/
def op2Dup (stack : List valtype) : Except Thrown (List valtype) := do
  failIf (stack.length < 2) .INVALID_STACK_OPERATION
  let vch1 ← stacktop stack (-2)
  let vch2 ← stacktop stack (-1)
  return stack ++ [vch1, vch2]

/-- `OP_3DUP`. -/
def op3Dup (stack : List valtype) : Except Thrown (List valtype) := do
  failIf (stack.length < 3) .INVALID_STACK_OPERATION
  let vch1 ← stacktop stack (-3)
  let vch2 ← stacktop stack (-2)
  let vch3 ← stacktop stack (-1)
  return stack ++ [vch1, vch2, vch3]

/-- `OP_2OVER`. -/
def op2Over (stack : List valtype) : Except Thrown (List valtype) := do
  failIf (stack.length < 4) .INVALID_STACK_OPERATION
  let vch1 ← stacktop stack (-4)
  let vch2 ← stacktop stack (-3)
  return stack ++ [vch1, vch2]

/-- `OP_2ROT`. -/
def op2Rot (stack : List valtype) : Except Thrown (List valtype) := do
  failIf (stack.length < 6) .INVALID_STACK_OPERATION
  let vch1 ← stacktop stack (-6)
  let vch2 ← stacktop stack (-5)
  let stack ← eraseRangeFromEnd stack 6 4
  return stack ++ [vch1, vch2]

/-- `OP_2SWAP`. -/
def op2Swap (stack : List valtype) : Except Thrown (List valtype) := do
  failIf (stack.length < 4) .INVALID_STACK_OPERATION
  swapStacktop (← swapStacktop stack (-4) (-2)) (-3) (-1)

/-- `OP_IFDUP`. -/
def opIfDup (stack : List valtype) : Except Thrown (List valtype) := do
  failIf (stack.length < 1) .INVALID_STACK_OPERATION
  let vch ← stacktop stack (-1)
  return if CastToBool vch then stack ++ [vch] else stack

/-- `OP_DEPTH`. -/
def opDepth (stack : List valtype) : List valtype := pushNum stack ⟨stack.length⟩

/-- `OP_DROP`. -/
def opDrop (stack : List valtype) : Except Thrown (List valtype) := do
  failIf (stack.length < 1) .INVALID_STACK_OPERATION
  popstack stack

/-- `OP_DUP`. -/
def opDup (stack : List valtype) : Except Thrown (List valtype) := do
  failIf (stack.length < 1) .INVALID_STACK_OPERATION
  return stack ++ [← stacktop stack (-1)]

/-- `OP_NIP`. -/
def opNip (stack : List valtype) : Except Thrown (List valtype) := do
  failIf (stack.length < 2) .INVALID_STACK_OPERATION
  eraseFromEnd stack 2

/-- `OP_OVER`. -/
def opOver (stack : List valtype) : Except Thrown (List valtype) := do
  failIf (stack.length < 2) .INVALID_STACK_OPERATION
  return stack ++ [← stacktop stack (-2)]

/-- `OP_PICK` / `OP_ROLL`: copy (or move) the element `n` below the top. -/
def opPickRoll (roll : Bool) (fRequireMinimal : Bool) (stack : List valtype) :
    Except Thrown (List valtype) := do
  failIf (stack.length < 2) .INVALID_STACK_OPERATION
  let n := (← ofVch (← stacktop stack (-1)) fRequireMinimal).getint
  let stack ← popstack stack
  failIf (n < 0 || n ≥ stack.length) .INVALID_STACK_OPERATION
  let vch ← stacktop stack (-n - 1)
  let stack ← if roll then eraseFromEnd stack (n + 1) else pure stack
  return stack ++ [vch]

/-- `OP_ROT`. -/
def opRot (stack : List valtype) : Except Thrown (List valtype) := do
  failIf (stack.length < 3) .INVALID_STACK_OPERATION
  swapStacktop (← swapStacktop stack (-3) (-2)) (-2) (-1)

/-- `OP_SWAP`. -/
def opSwap (stack : List valtype) : Except Thrown (List valtype) := do
  failIf (stack.length < 2) .INVALID_STACK_OPERATION
  swapStacktop stack (-2) (-1)

/-- `OP_TUCK`. -/
def opTuck (stack : List valtype) : Except Thrown (List valtype) := do
  failIf (stack.length < 2) .INVALID_STACK_OPERATION
  insertFromEnd stack 2 (← stacktop stack (-1))

/-- `OP_SIZE`. -/
def opSize (stack : List valtype) : Except Thrown (List valtype) := do
  failIf (stack.length < 1) .INVALID_STACK_OPERATION
  return pushNum stack ⟨(← stacktop stack (-1)).length⟩

/-! ## Bitwise logic and equality -/

/-- `OP_AND` / `OP_OR` / `OP_XOR`, combining equal-size operands byte by byte
with `f` into the second element from the top. -/
def opBitwise (f : UInt8 → UInt8 → UInt8) (stack : List valtype) :
    Except Thrown (List valtype) := do
  failIf (stack.length < 2) .INVALID_STACK_OPERATION
  let vch1 ← stacktop stack (-2)
  let vch2 ← stacktop stack (-1)
  failIf (vch1.length != vch2.length) .INVALID_OPERAND_SIZE
  popstack (← setStacktop stack (-2) (List.zipWith f vch1 vch2))

/-- `OP_EQUAL` / `OP_EQUALVERIFY`. -/
def opEqual (verify : Bool) (stack : List valtype) : Except Thrown (List valtype) := do
  failIf (stack.length < 2) .INVALID_STACK_OPERATION
  let fEqual := (← stacktop stack (-2)) == (← stacktop stack (-1))
  let stack := (← popstack (← popstack stack)) ++ [boolVch fEqual]
  if !verify then return stack
  if fEqual then popstack stack else setError .EQUALVERIFY

/-! ## Numeric -/

/-- The inner `switch` of the unary numeric opcodes. -/
def unaryOp (op : Opcode) (bn : CScriptNum) : Except Thrown CScriptNum :=
  match op with
  | .OP_1ADD => bn.addAssign 1
  | .OP_1SUB => bn.subAssign 1
  | .OP_NEGATE => bn.neg
  | .OP_ABS => if bn.m_value < 0 then bn.neg else .ok bn
  | .OP_NOT => .ok ⟨if bn.m_value = 0 then 1 else 0⟩
  | .OP_0NOTEQUAL => .ok ⟨if bn.m_value ≠ 0 then 1 else 0⟩
  | _ => .error .abort

/-- `OP_1ADD`, `OP_1SUB`, `OP_NEGATE`, `OP_ABS`, `OP_NOT`, `OP_0NOTEQUAL`. -/
def opUnaryNum (op : Opcode) (fRequireMinimal : Bool) (stack : List valtype) :
    Except Thrown (List valtype) := do
  failIf (stack.length < 1) .INVALID_STACK_OPERATION
  let bn ← unaryOp op (← ofVch (← stacktop stack (-1)) fRequireMinimal)
  return pushNum (← popstack stack) bn

/-- The inner `switch` of the binary numeric opcodes. -/
def binaryOp (op : Opcode) (bn1 bn2 : CScriptNum) : Except Thrown CScriptNum :=
  let ofBool (b : Bool) : CScriptNum := ⟨if b then 1 else 0⟩
  match op with
  | .OP_ADD => add bn1 bn2
  | .OP_SUB => sub bn1 bn2
  | .OP_DIV => if bn2.m_value = 0 then setError .DIV_BY_ZERO else div bn1 bn2
  | .OP_MOD => if bn2.m_value = 0 then setError .MOD_BY_ZERO else mod bn1 bn2
  | .OP_BOOLAND => .ok (ofBool (bn1.m_value ≠ 0 && bn2.m_value ≠ 0))
  | .OP_BOOLOR => .ok (ofBool (bn1.m_value ≠ 0 || bn2.m_value ≠ 0))
  | .OP_NUMEQUAL => .ok (ofBool (bn1.m_value = bn2.m_value))
  | .OP_NUMEQUALVERIFY => .ok (ofBool (bn1.m_value = bn2.m_value))
  | .OP_NUMNOTEQUAL => .ok (ofBool (bn1.m_value ≠ bn2.m_value))
  | .OP_LESSTHAN => .ok (ofBool (bn1.m_value < bn2.m_value))
  | .OP_GREATERTHAN => .ok (ofBool (bn1.m_value > bn2.m_value))
  | .OP_LESSTHANOREQUAL => .ok (ofBool (bn1.m_value ≤ bn2.m_value))
  | .OP_GREATERTHANOREQUAL => .ok (ofBool (bn1.m_value ≥ bn2.m_value))
  | .OP_MIN => .ok (if bn1.m_value < bn2.m_value then bn1 else bn2)
  | .OP_MAX => .ok (if bn1.m_value > bn2.m_value then bn1 else bn2)
  | _ => .error .abort

/-- `OP_ADD` … `OP_MAX`: the binary numeric opcodes; `OP_NUMEQUALVERIFY`
then checks its result. -/
def opBinaryNum (op : Opcode) (fRequireMinimal : Bool) (stack : List valtype) :
    Except Thrown (List valtype) := do
  failIf (stack.length < 2) .INVALID_STACK_OPERATION
  let bn1 ← ofVch (← stacktop stack (-2)) fRequireMinimal
  let bn2 ← ofVch (← stacktop stack (-1)) fRequireMinimal
  let bn ← binaryOp op bn1 bn2
  let stack := pushNum (← popstack (← popstack stack)) bn
  if op != .OP_NUMEQUALVERIFY then return stack
  if CastToBool (← stacktop stack (-1)) then popstack stack else setError .NUMEQUALVERIFY

/-- `OP_WITHIN`. -/
def opWithin (fRequireMinimal : Bool) (stack : List valtype) :
    Except Thrown (List valtype) := do
  failIf (stack.length < 3) .INVALID_STACK_OPERATION
  let bn1 ← ofVch (← stacktop stack (-3)) fRequireMinimal
  let bn2 ← ofVch (← stacktop stack (-2)) fRequireMinimal
  let bn3 ← ofVch (← stacktop stack (-1)) fRequireMinimal
  let fValue := decide (bn2.m_value ≤ bn1.m_value) && decide (bn1.m_value < bn3.m_value)
  return (← popstack (← popstack (← popstack stack))) ++ [boolVch fValue]

/-! ## Crypto -/

/-- `OP_RIPEMD160`, `OP_SHA1`, `OP_SHA256`, `OP_HASH160`, `OP_HASH256`, with
the hash `h`. -/
def opHash (h : valtype → valtype) (stack : List valtype) : Except Thrown (List valtype) := do
  failIf (stack.length < 1) .INVALID_STACK_OPERATION
  let vchHash := h (← stacktop stack (-1))
  return (← popstack stack) ++ [vchHash]

/-- `EvalChecksig`: the encoding checks, then the checker on the script code
from the last code separator with the signature removed; the result is
`fSuccess`, and a failed non-empty signature is fatal under NULLFAIL. -/
def EvalChecksig (env : EvalEnv) (vchSig vchPubKey : valtype) (scriptCode : CScript)
    (metrics : ScriptExecutionMetrics) : Except Thrown (Bool × ScriptExecutionMetrics) := do
  CheckTransactionSignatureEncoding env.crypto vchSig env.flags
  CheckPubKeyEncoding vchPubKey env.flags
  if vchSig.length = 0 then return (false, metrics)
  let scriptCode := CleanupScriptCode scriptCode vchSig env.flags
  let fSuccess := env.checker.CheckSig vchSig vchPubKey scriptCode env.flags
  failIf (!fSuccess && hasFlag env.flags SCRIPT_VERIFY_NULLFAIL) .SIG_NULLFAIL
  return (fSuccess, ⟨metrics.nSigChecks + 1⟩)

/-- `OP_CHECKSIG` / `OP_CHECKSIGVERIFY`. -/
def opCheckSig (verify : Bool) (env : EvalEnv) (st : EvalState) :
    Except Thrown EvalState := do
  failIf (st.stack.length < 2) .INVALID_STACK_OPERATION
  let vchSig ← stacktop st.stack (-2)
  let vchPubKey ← stacktop st.stack (-1)
  let (fSuccess, metrics) ← EvalChecksig env vchSig vchPubKey st.pbegincodehash st.metrics
  let stack := (← popstack (← popstack st.stack)) ++ [boolVch fSuccess]
  let stack ← if !verify then pure stack
    else if fSuccess then popstack stack else setError .CHECKSIGVERIFY
  return { st with stack := stack, metrics := metrics }

/-- `OP_CHECKDATASIG` / `OP_CHECKDATASIGVERIFY`: a signature over the SHA256
of a message from the stack. -/
def opCheckDataSig (verify : Bool) (env : EvalEnv) (st : EvalState) :
    Except Thrown EvalState := do
  failIf (st.stack.length < 3) .INVALID_STACK_OPERATION
  let vchSig ← stacktop st.stack (-3)
  let vchMessage ← stacktop st.stack (-2)
  let vchPubKey ← stacktop st.stack (-1)
  CheckDataSignatureEncoding env.crypto vchSig env.flags
  CheckPubKeyEncoding vchPubKey env.flags
  let (fSuccess, metrics) ←
    if vchSig.length = 0 then pure (false, st.metrics)
    else do
      let fSuccess :=
        env.checker.VerifySignature vchSig vchPubKey (env.crypto.SHA256 vchMessage)
      failIf (!fSuccess && hasFlag env.flags SCRIPT_VERIFY_NULLFAIL) .SIG_NULLFAIL
      pure (fSuccess, ⟨st.metrics.nSigChecks + 1⟩)
  let stack := (← popstack (← popstack (← popstack st.stack))) ++ [boolVch fSuccess]
  let stack ← if !verify then pure stack
    else if fSuccess then popstack stack else setError .CHECKDATASIGVERIFY
  return { st with stack := stack, metrics := metrics }

/-! ## `OP_CHECKMULTISIG` -/

/-- The inner `while` of the Schnorr path: from `iKey`, the position of the
next set bit of `checkBits`, which exists since `checkBits >> iKey != 0`. -/
def nextSetBit (checkBits iKey : Nat) (h : checkBits >>> iKey ≠ 0) : Nat :=
  if hbit : (checkBits >>> iKey) % 2 = 0 then
    nextSetBit checkBits (iKey + 1) (by
      rw [Nat.shiftRight_succ]
      generalize checkBits >>> iKey = x at *
      omega)
  else iKey
termination_by checkBits >>> iKey
decreasing_by
  rw [Nat.shiftRight_succ]
  generalize checkBits >>> iKey = x at *
  omega

/-- The Schnorr multisig loop: signature `iSig` (counted from the bottom
signature) against the key at the next set bit of `checkBits`; `k` is the
number of iterations left, `nSigsCount - iSig`. Returns the final `iKey`. -/
def schnorrMultisigLoop (env : EvalEnv) (stack : List valtype) (scriptCode : CScript)
    (checkBits nKeysCount idxBottomSig idxBottomKey : Nat) :
    (k iSig iKey : Nat) → ScriptExecutionMetrics →
      Except Thrown (Nat × ScriptExecutionMetrics)
  | 0, _, iKey, metrics => .ok (iKey, metrics)
  | k + 1, iSig, iKey, metrics =>
    if h : checkBits >>> iKey = 0 then setError .INVALID_BIT_RANGE
    else do
      let iKey := nextSetBit checkBits iKey h
      failIf (iKey ≥ nKeysCount) .PUBKEY_COUNT
      let vchSig ← stacktop stack (-(idxBottomSig : Int) + iSig)
      let vchPubKey ← stacktop stack (-(idxBottomKey : Int) + iKey)
      CheckTransactionSchnorrSignatureEncoding vchSig env.flags
      CheckPubKeyEncoding vchPubKey env.flags
      -- an empty signature fails here too, which is a NULLFAIL error
      failIf (!env.checker.CheckSig vchSig vchPubKey scriptCode env.flags) .SIG_NULLFAIL
      schnorrMultisigLoop env stack scriptCode checkBits nKeysCount idxBottomSig
        idxBottomKey k (iSig + 1) (iKey + 1) ⟨metrics.nSigChecks + 1⟩

/-- The legacy multisig loop, `while (fSuccess && nSigsRemaining > 0)`: the
next signature against the next key; a failed key is skipped, and the loop
fails once more signatures remain than keys. `_hinv` is the loop invariant
`nSigsRemaining ≤ nKeysRemaining`: the loop stops before it runs out of keys. -/
def legacyMultisigLoop (env : EvalEnv) (stack : List valtype) (scriptCode : CScript)
    (idxTopSig idxTopKey nSigsCount nKeysCount : Nat) (nSigsRemaining nKeysRemaining : Nat)
    (_hinv : nSigsRemaining ≤ nKeysRemaining) : Except Thrown Bool :=
  if hs : nSigsRemaining = 0 then .ok true
  else do
    let vchSig ← stacktop stack (-(idxTopSig : Int) - (nSigsCount - nSigsRemaining : Int))
    let vchPubKey ← stacktop stack (-(idxTopKey : Int) - (nKeysCount - nKeysRemaining : Int))
    CheckTransactionECDSASignatureEncoding env.crypto vchSig env.flags
    CheckPubKeyEncoding vchPubKey env.flags
    let fOk := env.checker.CheckSig vchSig vchPubKey scriptCode env.flags
    let nSigsRemaining' := if fOk then nSigsRemaining - 1 else nSigsRemaining
    let nKeysRemaining' := nKeysRemaining - 1
    if hgt : nSigsRemaining' > nKeysRemaining' then .ok false
    else
      legacyMultisigLoop env stack scriptCode idxTopSig idxTopKey nSigsCount nKeysCount
        nSigsRemaining' nKeysRemaining' (Nat.le_of_not_gt hgt)
termination_by nKeysRemaining
decreasing_by exact Nat.sub_lt (Nat.lt_of_lt_of_le (Nat.pos_of_ne_zero hs) _hinv) Nat.one_pos

/-- `areAllSignaturesNull`: the loop over the signatures that stops at the
first non-empty one. -/
def areAllSignaturesNull (stack : List valtype) (idxTopSig : Nat) :
    List Nat → Except Thrown Bool
  | [] => .ok true
  | i :: is => do
    if (← stacktop stack (-(idxTopSig : Int) - i)).length != 0 then return false
    areAllSignaturesNull stack idxTopSig is

/-- `popstack` applied `n` times. -/
def popstackN : Nat → List valtype → Except Thrown (List valtype)
  | 0, stack => .ok stack
  | n + 1, stack => do popstackN n (← popstack stack)

/-- The Schnorr path of `OP_CHECKMULTISIG`: the dummy element is a bit field of
the keys to check, with exactly `nSigsCount` bits set. -/
def schnorrMultisig (env : EvalEnv) (stack : List valtype) (scriptCode : CScript)
    (idxTopKey idxTopSig idxDummy : Nat) (nKeysCount nSigsCount : Nat)
    (metrics : ScriptExecutionMetrics) : Except Thrown ScriptExecutionMetrics := do
  let checkBits ← DecodeBitfield (← stacktop stack (-(idxDummy : Int))) nKeysCount
  failIf (countBits checkBits != nSigsCount) .INVALID_BIT_COUNT
  let idxBottomKey := idxTopKey + nKeysCount - 1
  let idxBottomSig := idxTopSig + nSigsCount - 1
  let (iKey, metrics) ← schnorrMultisigLoop env stack scriptCode checkBits nKeysCount
    idxBottomSig idxBottomKey nSigsCount 0 0 metrics
  failIf (checkBits >>> iKey != 0) .INVALID_BIT_COUNT
  return metrics

/-- The legacy (ECDSA or null) path of `OP_CHECKMULTISIG`: returns `fSuccess`. -/
def legacyMultisig (env : EvalEnv) (stack : List valtype) (scriptCode : CScript)
    (idxTopKey idxTopSig : Nat) (nKeysCount nSigsCount : Nat) (hcount : nSigsCount ≤ nKeysCount)
    (metrics : ScriptExecutionMetrics) : Except Thrown (Bool × ScriptExecutionMetrics) := do
  -- remove the signatures from the script code for pre-fork scripts
  let scriptCode ← (List.range nSigsCount).foldlM (fun sc k => do
    return CleanupScriptCode sc (← stacktop stack (-(idxTopSig : Int) - k)) env.flags) scriptCode
  let fSuccess ← legacyMultisigLoop env stack scriptCode idxTopSig idxTopKey nSigsCount
    nKeysCount nSigsCount nKeysCount hcount
  let allNull ← areAllSignaturesNull stack idxTopSig (List.range nSigsCount)
  failIf (!fSuccess && hasFlag env.flags SCRIPT_VERIFY_NULLFAIL && !allNull) .SIG_NULLFAIL
  -- an upper bound on the ECDSA verifications, known without doing them
  let metrics : ScriptExecutionMetrics :=
    if !allNull then ⟨metrics.nSigChecks + nKeysCount⟩ else metrics
  return (fSuccess, metrics)

/-- `OP_CHECKMULTISIG` / `OP_CHECKMULTISIGVERIFY`: `[dummy] [sig ...]
num_of_signatures [pubkey ...] num_of_pubkeys`. -/
def opCheckMultiSig (verify : Bool) (env : EvalEnv) (st : EvalState) :
    Except Thrown EvalState := do
  let stack := st.stack
  let idxKeyCount : Nat := 1
  failIf (stack.length < idxKeyCount) .INVALID_STACK_OPERATION
  let nKeysCount := (← ofVch (← stacktop stack (-(idxKeyCount : Int))) env.fRequireMinimal).getint
  failIf (nKeysCount < 0 || nKeysCount > MAX_PUBKEYS_PER_MULTISIG) .PUBKEY_COUNT
  let nOpCount := st.nOpCount + nKeysCount
  failIf (nOpCount > MAX_OPS_PER_SCRIPT) .OP_COUNT
  -- stack depths of the top pubkey, of nSigsCount, of the top signature and
  -- of the dummy element
  let idxTopKey := idxKeyCount + 1
  let idxSigCount := idxTopKey + nKeysCount.toNat
  failIf (stack.length < idxSigCount) .INVALID_STACK_OPERATION
  let nSigsCount := (← ofVch (← stacktop stack (-(idxSigCount : Int))) env.fRequireMinimal).getint
  if hsig : nSigsCount < 0 ∨ nSigsCount > nKeysCount then setError .SIG_COUNT
  else
    let idxTopSig := idxSigCount + 1
    let idxDummy := idxTopSig + nSigsCount.toNat
    failIf (stack.length < idxDummy) .INVALID_STACK_OPERATION
    let scriptCode := st.pbegincodehash
    let schnorr ← if hasFlag env.flags SCRIPT_ENABLE_SCHNORR_MULTISIG then do
        pure ((← stacktop stack (-(idxDummy : Int))).length != 0)
      else pure false
    let (fSuccess, metrics) ←
      if schnorr then
        -- the Schnorr path can only succeed
        (true, ·) <$> schnorrMultisig env stack scriptCode idxTopKey idxTopSig idxDummy
          nKeysCount.toNat nSigsCount.toNat st.metrics
      else
        legacyMultisig env stack scriptCode idxTopKey idxTopSig nKeysCount.toNat
          nSigsCount.toNat (by omega) st.metrics
    -- clean up the stack of all arguments
    let stack := (← popstackN idxDummy stack) ++ [boolVch fSuccess]
    let stack ← if !verify then pure stack
      else if fSuccess then popstack stack else setError .CHECKMULTISIGVERIFY
    return { st with stack := stack, nOpCount := nOpCount, metrics := metrics }

/-! ## Byte strings and conversions -/

/-- `OP_CAT`. -/
def opCat (stack : List valtype) : Except Thrown (List valtype) := do
  failIf (stack.length < 2) .INVALID_STACK_OPERATION
  let vch1 ← stacktop stack (-2)
  let vch2 ← stacktop stack (-1)
  failIf (vch1.length + vch2.length > MAX_SCRIPT_ELEMENT_SIZE) .PUSH_SIZE
  popstack (← setStacktop stack (-2) (vch1 ++ vch2))

/-- `OP_SPLIT`. -/
def opSplit (fRequireMinimal : Bool) (stack : List valtype) : Except Thrown (List valtype) := do
  failIf (stack.length < 2) .INVALID_STACK_OPERATION
  let data ← stacktop stack (-2)
  let position := toUInt64 (← ofVch (← stacktop stack (-1)) fRequireMinimal).getint
  failIf (position > data.length) .INVALID_SPLIT_RANGE
  setStacktop (← setStacktop stack (-2) (data.take position)) (-1) (data.drop position)

/-- `OP_REVERSEBYTES`. -/
def opReverseBytes (stack : List valtype) : Except Thrown (List valtype) := do
  failIf (stack.length < 1) .INVALID_STACK_OPERATION
  setStacktop stack (-1) (← stacktop stack (-1)).reverse

/-- `OP_NUM2BIN`: the minimal encoding of the number, padded with zero bytes to
`size`, the sign bit moved to the last byte. -/
def opNum2Bin (fRequireMinimal : Bool) (stack : List valtype) :
    Except Thrown (List valtype) := do
  failIf (stack.length < 2) .INVALID_STACK_OPERATION
  let size := toUInt64 (← ofVch (← stacktop stack (-1)) fRequireMinimal).getint
  failIf (size > MAX_SCRIPT_ELEMENT_SIZE) .PUSH_SIZE
  let stack ← popstack stack
  -- `rawnum` is a reference into the stack: it is re-encoded in place
  let rawnum := (MinimallyEncode (← stacktop stack (-1))).2
  let stack ← setStacktop stack (-1) rawnum
  failIf (rawnum.length > size) .IMPOSSIBLE_ENCODING
  if rawnum.length = size then return stack
  let signbit : UInt8 := match rawnum.getLast? with
    | some back => back &&& 0x80
    | none => 0x00
  let body := match rawnum.getLast? with
    | some back => rawnum.dropLast ++ [back &&& 0x7f]
    | none => rawnum
  setStacktop stack (-1) (body ++ List.replicate (size - 1 - body.length) 0x00 ++ [signbit])

/-- `OP_BIN2NUM`: re-encode minimally; the result must be a valid 4-byte
number. -/
def opBin2Num (stack : List valtype) : Except Thrown (List valtype) := do
  failIf (stack.length < 1) .INVALID_STACK_OPERATION
  let n := (MinimallyEncode (← stacktop stack (-1))).2
  let stack ← setStacktop stack (-1) n
  failIf (!IsMinimallyEncoded n) .INVALID_NUMBER_RANGE
  return stack

/-! ## The `switch` -/

/-- Run a family that only touches the main stack. -/
def onStack (st : EvalState) (f : List valtype → Except Thrown (List valtype)) :
    Except Thrown EvalState := do
  return { st with stack := ← f st.stack }

/-- The `switch (opcode)` of `EvalScript`, for an opcode that is executed or
is one of `OP_IF` … `OP_ENDIF`. -/
def execOpcode (env : EvalEnv) (opcode : UInt8) (nextPc : CScript) (fExec : Bool)
    (st : EvalState) : Except Thrown EvalState :=
  match Opcode.ofByte opcode with
  | .OP_1NEGATE | .OP_1 | .OP_2 | .OP_3 | .OP_4 | .OP_5 | .OP_6 | .OP_7 | .OP_8
  | .OP_9 | .OP_10 | .OP_11 | .OP_12 | .OP_13 | .OP_14 | .OP_15 | .OP_16 =>
    .ok { st with stack := opPushValue opcode st.stack }
  | .OP_NOP => .ok st
  | .OP_CHECKLOCKTIMEVERIFY => do opCheckLockTimeVerify env st.stack; return st
  | .OP_CHECKSEQUENCEVERIFY => do opCheckSequenceVerify env st.stack; return st
  | .OP_NOP1 | .OP_NOP4 | .OP_NOP5 | .OP_NOP6 | .OP_NOP7 | .OP_NOP8 | .OP_NOP9
  | .OP_NOP10 => do opUpgradableNop env.flags; return st
  | .OP_IF => opIf false env.flags fExec st
  | .OP_NOTIF => opIf true env.flags fExec st
  | .OP_ELSE => opElse st
  | .OP_ENDIF => opEndIf st
  | .OP_VERIFY => onStack st opVerify
  | .OP_RETURN => setError .OP_RETURN
  | .OP_TOALTSTACK => opToAltStack st
  | .OP_FROMALTSTACK => opFromAltStack st
  | .OP_2DROP => onStack st op2Drop
  | .OP_2DUP => onStack st op2Dup
  | .OP_3DUP => onStack st op3Dup
  | .OP_2OVER => onStack st op2Over
  | .OP_2ROT => onStack st op2Rot
  | .OP_2SWAP => onStack st op2Swap
  | .OP_IFDUP => onStack st opIfDup
  | .OP_DEPTH => .ok { st with stack := opDepth st.stack }
  | .OP_DROP => onStack st opDrop
  | .OP_DUP => onStack st opDup
  | .OP_NIP => onStack st opNip
  | .OP_OVER => onStack st opOver
  | .OP_PICK => onStack st (opPickRoll false env.fRequireMinimal)
  | .OP_ROLL => onStack st (opPickRoll true env.fRequireMinimal)
  | .OP_ROT => onStack st opRot
  | .OP_SWAP => onStack st opSwap
  | .OP_TUCK => onStack st opTuck
  | .OP_SIZE => onStack st opSize
  | .OP_AND => onStack st (opBitwise (· &&& ·))
  | .OP_OR => onStack st (opBitwise (· ||| ·))
  | .OP_XOR => onStack st (opBitwise (· ^^^ ·))
  | .OP_EQUAL => onStack st (opEqual false)
  | .OP_EQUALVERIFY => onStack st (opEqual true)
  | .OP_1ADD => onStack st (opUnaryNum .OP_1ADD env.fRequireMinimal)
  | .OP_1SUB => onStack st (opUnaryNum .OP_1SUB env.fRequireMinimal)
  | .OP_NEGATE => onStack st (opUnaryNum .OP_NEGATE env.fRequireMinimal)
  | .OP_ABS => onStack st (opUnaryNum .OP_ABS env.fRequireMinimal)
  | .OP_NOT => onStack st (opUnaryNum .OP_NOT env.fRequireMinimal)
  | .OP_0NOTEQUAL => onStack st (opUnaryNum .OP_0NOTEQUAL env.fRequireMinimal)
  | .OP_ADD => onStack st (opBinaryNum .OP_ADD env.fRequireMinimal)
  | .OP_SUB => onStack st (opBinaryNum .OP_SUB env.fRequireMinimal)
  | .OP_DIV => onStack st (opBinaryNum .OP_DIV env.fRequireMinimal)
  | .OP_MOD => onStack st (opBinaryNum .OP_MOD env.fRequireMinimal)
  | .OP_BOOLAND => onStack st (opBinaryNum .OP_BOOLAND env.fRequireMinimal)
  | .OP_BOOLOR => onStack st (opBinaryNum .OP_BOOLOR env.fRequireMinimal)
  | .OP_NUMEQUAL => onStack st (opBinaryNum .OP_NUMEQUAL env.fRequireMinimal)
  | .OP_NUMEQUALVERIFY => onStack st (opBinaryNum .OP_NUMEQUALVERIFY env.fRequireMinimal)
  | .OP_NUMNOTEQUAL => onStack st (opBinaryNum .OP_NUMNOTEQUAL env.fRequireMinimal)
  | .OP_LESSTHAN => onStack st (opBinaryNum .OP_LESSTHAN env.fRequireMinimal)
  | .OP_GREATERTHAN => onStack st (opBinaryNum .OP_GREATERTHAN env.fRequireMinimal)
  | .OP_LESSTHANOREQUAL => onStack st (opBinaryNum .OP_LESSTHANOREQUAL env.fRequireMinimal)
  | .OP_GREATERTHANOREQUAL =>
    onStack st (opBinaryNum .OP_GREATERTHANOREQUAL env.fRequireMinimal)
  | .OP_MIN => onStack st (opBinaryNum .OP_MIN env.fRequireMinimal)
  | .OP_MAX => onStack st (opBinaryNum .OP_MAX env.fRequireMinimal)
  | .OP_WITHIN => onStack st (opWithin env.fRequireMinimal)
  | .OP_RIPEMD160 => onStack st (opHash env.crypto.RIPEMD160)
  | .OP_SHA1 => onStack st (opHash env.crypto.SHA1)
  | .OP_SHA256 => onStack st (opHash env.crypto.SHA256)
  | .OP_HASH160 => onStack st (opHash env.crypto.Hash160)
  | .OP_HASH256 => onStack st (opHash env.crypto.Hash256)
  -- the script code now starts after the separator
  | .OP_CODESEPARATOR => .ok { st with pbegincodehash := nextPc }
  | .OP_CHECKSIG => opCheckSig false env st
  | .OP_CHECKSIGVERIFY => opCheckSig true env st
  | .OP_CHECKDATASIG => opCheckDataSig false env st
  | .OP_CHECKDATASIGVERIFY => opCheckDataSig true env st
  | .OP_CHECKMULTISIG => opCheckMultiSig false env st
  | .OP_CHECKMULTISIGVERIFY => opCheckMultiSig true env st
  | .OP_CAT => onStack st opCat
  | .OP_SPLIT => onStack st (opSplit env.fRequireMinimal)
  | .OP_REVERSEBYTES => onStack st opReverseBytes
  | .OP_NUM2BIN => onStack st (opNum2Bin env.fRequireMinimal)
  | .OP_BIN2NUM => onStack st opBin2Num
  | .OP_RESERVED | .OP_VER | .OP_VERIF | .OP_VERNOTIF | .OP_INVERT | .OP_RESERVED1
  | .OP_RESERVED2 | .OP_2MUL | .OP_2DIV | .OP_MUL | .OP_LSHIFT | .OP_RSHIFT
  | .other _ => setError .BAD_OPCODE

/-! ## The loop -/

/-- The push of an executed push opcode, minimal under MINIMALDATA. -/
def pushData (fRequireMinimal : Bool) (ins : Instr) (st : EvalState) :
    Except Thrown EvalState := do
  if fRequireMinimal then
    failIf (!(← CheckMinimalPush ins.data ins.opcode)) .MINIMALDATA
  return { st with stack := st.stack ++ [ins.data] }

/-- One iteration of `EvalScript`'s `while (pc < pend)` loop, after the
instruction has been read. -/
def step (env : EvalEnv) (st : EvalState) (ins : Instr) : Except Thrown EvalState := do
  let fExec := st.vfExec.all_true
  failIf (ins.data.length > MAX_SCRIPT_ELEMENT_SIZE) .PUSH_SIZE
  -- OP_RESERVED does not count towards the opcode limit
  let nOpCount := if ins.opcode > OP_16_BYTE then st.nOpCount + 1 else st.nOpCount
  failIf (ins.opcode > OP_16_BYTE && nOpCount > MAX_OPS_PER_SCRIPT) .OP_COUNT
  failIf ((Opcode.ofByte ins.opcode).isOpcodeDisabled) .DISABLED_OPCODE
  let st := { st with nOpCount := nOpCount }
  let st ←
    if fExec && ins.opcode ≤ OP_PUSHDATA4 then pushData env.fRequireMinimal ins st
    else if fExec || (OP_IF_BYTE ≤ ins.opcode && ins.opcode ≤ OP_ENDIF_BYTE) then
      execOpcode env ins.opcode ins.next fExec st
    else pure st
  failIf (st.stack.length + st.altstack.length > MAX_STACK_SIZE) .STACK_SIZE
  return st

/-- The `try` block of `EvalScript`: run the decoded instructions from `init`,
and fail with `BAD_OPCODE` where decoding stopped before the end. -/
def evalScriptBody (env : EvalEnv) (script : CScript) (init : EvalState) :
    Except Thrown EvalState := do
  let st ← (parseScript script).1.foldlM (step env) init
  failIf ((parseScript script).2) .BAD_OPCODE
  return st

/-- `EvalScript(stack, script, flags, checker, metrics)`: the final stack and
metrics. -/
def EvalScript (crypto : Crypto) (stack : List valtype) (script : CScript) (flags : UInt32)
    (checker : BaseSignatureChecker) (metrics : ScriptExecutionMetrics) :
    Except Thrown (List valtype × ScriptExecutionMetrics) :=
  if script.length > MAX_SCRIPT_SIZE then setError .SCRIPT_SIZE
  else
    match evalScriptBody ⟨crypto, flags, checker⟩ script
        { stack := stack, pbegincodehash := script, metrics := metrics } with
    -- `catch (...)`
    | .error (.exn _) => setError .UNKNOWN
    | .error t => .error t
    | .ok st =>
      if !st.vfExec.empty then setError .UNBALANCED_CONDITIONAL
      else .ok (st.stack, st.metrics)

/-! ## `VerifyScript` -/

/-- The end of `VerifyScript`: the CLEANSTACK rule (which must come with P2SH)
and the sigcheck density rule. -/
def verifyCleanStackAndSigChecks (scriptSig : CScript) (flags : UInt32)
    (stack : List valtype) (metrics : ScriptExecutionMetrics) :
    Except Thrown ScriptExecutionMetrics := do
  if hasFlag flags SCRIPT_VERIFY_CLEANSTACK then
    assert (hasFlag flags SCRIPT_VERIFY_P2SH)
    failIf (stack.length != 1) .CLEANSTACK
  -- at most one sigcheck per 43 bytes of scriptSig, with an allowance of 60
  failIf (hasFlag flags SCRIPT_VERIFY_INPUT_SIGCHECKS &&
    (scriptSig.length : Int) < metrics.nSigChecks * 43 - 60) .INPUT_SIGCHECKS
  return metrics

/-- The P2SH part of `VerifyScript`: `stackCopy` is the stack after
`scriptSig`; its top is the redeem script, which is evaluated on the rest,
except for the segwit-recovery case. -/
def verifyP2SH (crypto : Crypto) (scriptSig : CScript) (flags : UInt32)
    (checker : BaseSignatureChecker) (stackCopy : List valtype)
    (metrics : ScriptExecutionMetrics) : Except Thrown ScriptExecutionMetrics := do
  failIf (!IsPushOnly scriptSig) .SIG_PUSHONLY
  -- the HASH160 <> EQUAL scriptPubKey cannot succeed on an empty stack
  assert (!stackCopy.isEmpty)
  let pubKey2 := stackCopy.getLast?.getD []
  let stack ← popstack stackCopy
  -- bail out early on a p2sh segwit program pushed alone
  if !hasFlag flags SCRIPT_DISALLOW_SEGWIT_RECOVERY && stack.isEmpty &&
      IsWitnessProgram pubKey2 then
    return metrics
  let (stack, metrics) ← EvalScript crypto stack pubKey2 flags checker metrics
  failIf (stack.isEmpty) .EVAL_FALSE
  failIf (!CastToBool (stack.getLast?.getD [])) .EVAL_FALSE
  verifyCleanStackAndSigChecks scriptSig flags stack metrics

/-- `VerifyScript(scriptSig, scriptPubKey, flags, checker, metricsOut)`:
`scriptSig` and `scriptPubKey` are evaluated on the same stack, one after the
other; returns the metrics of a successful verification. -/
def VerifyScript (crypto : Crypto) (scriptSig scriptPubKey : CScript) (flags : UInt32)
    (checker : BaseSignatureChecker) : Except Thrown ScriptExecutionMetrics := do
  -- FORKID implies strict encoding
  let flags := if hasFlag flags SCRIPT_ENABLE_SIGHASH_FORKID then
    flags ||| SCRIPT_VERIFY_STRICTENC else flags
  failIf (hasFlag flags SCRIPT_VERIFY_SIGPUSHONLY && !IsPushOnly scriptSig) .SIG_PUSHONLY
  let (stack, metrics) ← EvalScript crypto [] scriptSig flags checker {}
  let stackCopy := stack
  let (stack, metrics) ← EvalScript crypto stack scriptPubKey flags checker metrics
  failIf (stack.isEmpty) .EVAL_FALSE
  failIf (!CastToBool (stack.getLast?.getD [])) .EVAL_FALSE
  if hasFlag flags SCRIPT_VERIFY_P2SH && IsPayToScriptHash scriptPubKey then
    verifyP2SH crypto scriptSig flags checker stackCopy metrics
  else verifyCleanStackAndSigChecks scriptSig flags stack metrics

end Script

end BitcoinAbc
