import Mathlib
import BitcoinAbc.Script.Interpreter

/-!
# `EvalScript` has no runtime error (script/interpreter.cpp, script.h)

Every access `EvalScript` makes to its stacks comes after a check of the stack
size; every index computed for `OP_CHECKMULTISIG`, `OP_PICK`, `OP_ROLL`,
`OP_2ROT`, ... lies within the bounds those checks established; and the
numeric opcodes only compute on operands of at most 4 bytes, so that their
`int64_t` arithmetic stays far from an overflow. What remains of the ways off
the normal path are the script errors and the `scriptnum_error` of the
`CScriptNum` constructor (`Thrown.Benign`), so the `catch (...)` of
`EvalScript` only ever catches the latter.

The proof follows the program: one lemma per family of opcodes (`*_benign`),
each a walk through its `do` block that turns every guard into a bound
(`failIf_bind_benign`) and every access into its value under that bound (the
`*_eq_ok` lemmas of `Machine`). The multisig loops carry their index
invariants by induction. `execOpcode_benign` and `step_benign` assemble the
families, and `evalScriptBody_benign` is the run lemma: it holds for every
script, every flag set and every initial state.
-/

namespace BitcoinAbc

namespace Script

open Except CScriptNum

/-! ## Benign errors -/

/-- The ends of an interpreter computation that are part of its contract: a
script error, or the `scriptnum_error` that the `CScriptNum` constructor throws
on a bad operand. An out-of-range `at()`, a `popstack` of an empty stack, a
failed assert and undefined behaviour are not. -/
def Thrown.Benign : Thrown → Prop
  | .fail _ => True
  | .exn .scriptnum_error => True
  | .exn .out_of_range => False
  | .exn .runtime_error => False
  | .abort => False

section Primitives

variable {α : Type}

theorem setError_benign (e : ScriptError) :
    ErrorsIn Thrown.Benign (setError e : Except Thrown α) :=
  ErrorsIn.error trivial

theorem failIf_benign (c : Bool) (e : ScriptError) : ErrorsIn Thrown.Benign (failIf c e) := by
  cases c with
  | true => exact setError_benign e
  | false => exact ErrorsIn.ok ()

/-- A guard: what follows it may assume that its condition is false. -/
theorem failIf_bind_benign {c : Bool} {e : ScriptError} {f : Unit → Except Thrown α}
    (hf : c = false → ErrorsIn Thrown.Benign (f ())) :
    ErrorsIn Thrown.Benign (failIf c e >>= f) := by
  cases c with
  | true => exact setError_benign e
  | false => exact hf rfl

theorem ofVch_benign (vch : valtype) (fRequireMinimal : Bool) (nMaxNumSize : Nat) :
    ErrorsIn Thrown.Benign (ofVch vch fRequireMinimal nMaxNumSize) := by
  intro t ht
  rw [ofVch_eq_error ht]
  trivial

end Primitives

/-! ## Encoding checks

The encoding checks only ever fail with a script error. -/

section Encodings

variable (crypto : Crypto) (flags : UInt32)

theorem CheckRawECDSASignatureEncoding_benign (sig : valtype) :
    ErrorsIn Thrown.Benign (CheckRawECDSASignatureEncoding crypto sig flags) :=
  failIf_bind_benign fun _ => failIf_bind_benign fun _ => failIf_benign _ _

theorem CheckRawSignatureEncoding_benign (sig : valtype) :
    ErrorsIn Thrown.Benign (CheckRawSignatureEncoding crypto sig flags) := by
  unfold CheckRawSignatureEncoding
  split
  · exact ErrorsIn.ok ()
  · exact CheckRawECDSASignatureEncoding_benign crypto flags sig

theorem CheckSighashEncoding_benign (vchSig : valtype) :
    ErrorsIn Thrown.Benign (CheckSighashEncoding vchSig flags) := by
  unfold CheckSighashEncoding
  split
  · exact failIf_bind_benign fun _ => failIf_bind_benign fun _ => failIf_benign _ _
  · exact ErrorsIn.ok ()

theorem CheckTransactionSignatureEncodingImpl_benign (vchSig : valtype)
    {fun' : valtype → UInt32 → Except Thrown Unit}
    (hfun : ∀ sig, ErrorsIn Thrown.Benign (fun' sig flags)) :
    ErrorsIn Thrown.Benign (CheckTransactionSignatureEncodingImpl vchSig flags fun') := by
  unfold CheckTransactionSignatureEncodingImpl
  split
  · exact ErrorsIn.ok ()
  · exact ErrorsIn.bind (hfun _) fun _ _ => CheckSighashEncoding_benign flags vchSig

theorem CheckTransactionSignatureEncoding_benign (vchSig : valtype) :
    ErrorsIn Thrown.Benign (CheckTransactionSignatureEncoding crypto vchSig flags) :=
  CheckTransactionSignatureEncodingImpl_benign flags vchSig
    (CheckRawSignatureEncoding_benign crypto flags)

theorem CheckTransactionECDSASignatureEncoding_benign (vchSig : valtype) :
    ErrorsIn Thrown.Benign (CheckTransactionECDSASignatureEncoding crypto vchSig flags) :=
  CheckTransactionSignatureEncodingImpl_benign flags vchSig
    (CheckRawECDSASignatureEncoding_benign crypto flags)

theorem CheckTransactionSchnorrSignatureEncoding_benign (vchSig : valtype) :
    ErrorsIn Thrown.Benign (CheckTransactionSchnorrSignatureEncoding vchSig flags) :=
  CheckTransactionSignatureEncodingImpl_benign flags vchSig fun _ => failIf_benign _ _

theorem CheckDataSignatureEncoding_benign (vchSig : valtype) :
    ErrorsIn Thrown.Benign (CheckDataSignatureEncoding crypto vchSig flags) := by
  unfold CheckDataSignatureEncoding
  split
  · exact ErrorsIn.ok ()
  · exact CheckRawSignatureEncoding_benign crypto flags vchSig

theorem CheckPubKeyEncoding_benign (vchPubKey : valtype) :
    ErrorsIn Thrown.Benign (CheckPubKeyEncoding vchPubKey flags) :=
  failIf_benign _ _

theorem DecodeBitfield_benign (vch : valtype) (size : Nat) :
    ErrorsIn Thrown.Benign (DecodeBitfield vch size) :=
  failIf_bind_benign fun _ => failIf_bind_benign fun _ => failIf_bind_benign fun _ =>
    ErrorsIn.pure _

end Encodings

/-! ## Stack operations -/

section Stack

variable (stack : List valtype)

theorem op2Dup_benign : ErrorsIn Thrown.Benign (op2Dup stack) := by
  unfold op2Dup
  refine failIf_bind_benign fun hlen => ?_
  have hlen : 2 ≤ stack.length := by simp at hlen; omega
  rw [stacktop_eq_ok (by omega) (by omega), ok_bind, stacktop_eq_ok (by omega) (by omega),
    ok_bind]
  exact ErrorsIn.pure _

theorem op3Dup_benign : ErrorsIn Thrown.Benign (op3Dup stack) := by
  unfold op3Dup
  refine failIf_bind_benign fun hlen => ?_
  have hlen : 3 ≤ stack.length := by simpa using hlen
  rw [stacktop_eq_ok (by omega) (by omega), ok_bind, stacktop_eq_ok (by omega) (by omega),
    ok_bind, stacktop_eq_ok (by omega) (by omega), ok_bind]
  exact ErrorsIn.pure _

theorem op2Over_benign : ErrorsIn Thrown.Benign (op2Over stack) := by
  unfold op2Over
  refine failIf_bind_benign fun hlen => ?_
  have hlen : 4 ≤ stack.length := by simpa using hlen
  rw [stacktop_eq_ok (by omega) (by omega), ok_bind, stacktop_eq_ok (by omega) (by omega),
    ok_bind]
  exact ErrorsIn.pure _

theorem op2Rot_benign : ErrorsIn Thrown.Benign (op2Rot stack) := by
  unfold op2Rot
  refine failIf_bind_benign fun hlen => ?_
  have hlen : 6 ≤ stack.length := by simpa using hlen
  rw [stacktop_eq_ok (by omega) (by omega), ok_bind, stacktop_eq_ok (by omega) (by omega),
    ok_bind, eraseRangeFromEnd_eq_ok (by omega) hlen, ok_bind]
  exact ErrorsIn.pure _

/-- Two swaps of elements within the top `k`, as `OP_2SWAP` and `OP_ROT` make. -/
theorem swapStacktop_swapStacktop_benign {k : Nat} {i j i' j' : Int} (hlen : k ≤ stack.length)
    (hi : -(k : Int) ≤ i ∧ i < 0) (hj : -(k : Int) ≤ j ∧ j < 0)
    (hi' : -(k : Int) ≤ i' ∧ i' < 0) (hj' : -(k : Int) ≤ j' ∧ j' < 0) :
    ErrorsIn Thrown.Benign (swapStacktop stack i j >>= fun s => swapStacktop s i' j') := by
  obtain ⟨s, hs, hslen⟩ := swapStacktop_eq_ok stack hi.2 (by omega) hj.2 (by omega)
  obtain ⟨s', hs', -⟩ := swapStacktop_eq_ok s hi'.2 (by omega) hj'.2 (by omega)
  rw [hs, ok_bind, hs']
  exact ErrorsIn.ok _

theorem op2Swap_benign : ErrorsIn Thrown.Benign (op2Swap stack) := by
  unfold op2Swap
  refine failIf_bind_benign fun hlen => ?_
  have hlen : 4 ≤ stack.length := by simpa using hlen
  exact swapStacktop_swapStacktop_benign stack hlen (by omega) (by omega) (by omega) (by omega)

theorem opRot_benign : ErrorsIn Thrown.Benign (opRot stack) := by
  unfold opRot
  refine failIf_bind_benign fun hlen => ?_
  have hlen : 3 ≤ stack.length := by simpa using hlen
  exact swapStacktop_swapStacktop_benign stack hlen (by omega) (by omega) (by omega) (by omega)

theorem opSwap_benign : ErrorsIn Thrown.Benign (opSwap stack) := by
  unfold opSwap
  refine failIf_bind_benign fun hlen => ?_
  have hlen : 2 ≤ stack.length := by simp at hlen; omega
  obtain ⟨s, hs, -⟩ := swapStacktop_eq_ok stack (i := -2) (j := -1) (by omega)
    (by omega) (by omega) (by omega)
  rw [hs]
  exact ErrorsIn.ok _

theorem opIfDup_benign : ErrorsIn Thrown.Benign (opIfDup stack) := by
  unfold opIfDup
  refine failIf_bind_benign fun hlen => ?_
  have hlen : 0 < stack.length := List.length_pos_iff.mpr (by simpa using hlen)
  rw [stacktop_eq_ok (by omega) (by omega), ok_bind]
  exact ErrorsIn.pure _

theorem opDrop_benign : ErrorsIn Thrown.Benign (opDrop stack) := by
  unfold opDrop
  refine failIf_bind_benign fun hlen => ?_
  have hlen : 0 < stack.length := List.length_pos_iff.mpr (by simpa using hlen)
  rw [popstack_eq_ok (by omega)]
  exact ErrorsIn.ok _

theorem op2Drop_benign : ErrorsIn Thrown.Benign (op2Drop stack) := by
  unfold op2Drop
  refine failIf_bind_benign fun hlen => ?_
  have hlen : 2 ≤ stack.length := by simp at hlen; omega
  rw [popstack_eq_ok (by omega), ok_bind, popstack_eq_ok (by simp; omega)]
  exact ErrorsIn.ok _

theorem opDup_benign : ErrorsIn Thrown.Benign (opDup stack) := by
  unfold opDup
  refine failIf_bind_benign fun hlen => ?_
  have hlen : 0 < stack.length := List.length_pos_iff.mpr (by simpa using hlen)
  rw [stacktop_eq_ok (by omega) (by omega), ok_bind]
  exact ErrorsIn.pure _

theorem opNip_benign : ErrorsIn Thrown.Benign (opNip stack) := by
  unfold opNip
  refine failIf_bind_benign fun hlen => ?_
  have hlen : 2 ≤ stack.length := by simp at hlen; omega
  rw [eraseFromEnd_eq_ok (by omega) (by omega)]
  exact ErrorsIn.ok _

theorem opOver_benign : ErrorsIn Thrown.Benign (opOver stack) := by
  unfold opOver
  refine failIf_bind_benign fun hlen => ?_
  have hlen : 2 ≤ stack.length := by simp at hlen; omega
  rw [stacktop_eq_ok (by omega) (by omega), ok_bind]
  exact ErrorsIn.pure _

/-- `OP_PICK` / `OP_ROLL`: the depth read from the stack is checked against the
stack left after popping it, which is the stack the element is taken from. -/
theorem opPickRoll_benign (roll fRequireMinimal : Bool) :
    ErrorsIn Thrown.Benign (opPickRoll roll fRequireMinimal stack) := by
  unfold opPickRoll
  refine failIf_bind_benign fun hlen => ?_
  have hlen : 2 ≤ stack.length := by simp at hlen; omega
  rw [stacktop_eq_ok (by omega) (by omega), ok_bind]
  refine ErrorsIn.bind (ofVch_benign _ _ _) fun bn _ => ?_
  dsimp only
  rw [popstack_eq_ok (by omega), ok_bind]
  refine failIf_bind_benign fun hn => ?_
  have hn : 0 ≤ bn.getint ∧ bn.getint < ((stack.length - 1 : Nat) : Int) := by simpa using hn
  rw [stacktop_eq_ok (by omega) (by simp; omega), ok_bind]
  cases roll with
  | false => exact ErrorsIn.pure _
  | true =>
    rw [if_pos rfl, eraseFromEnd_eq_ok (by omega) (by simp; omega), ok_bind]
    exact ErrorsIn.pure _

theorem opTuck_benign : ErrorsIn Thrown.Benign (opTuck stack) := by
  unfold opTuck
  refine failIf_bind_benign fun hlen => ?_
  have hlen : 2 ≤ stack.length := by simp at hlen; omega
  rw [stacktop_eq_ok (by omega) (by omega), ok_bind, insertFromEnd_eq_ok hlen]
  exact ErrorsIn.ok _

theorem opSize_benign : ErrorsIn Thrown.Benign (opSize stack) := by
  unfold opSize
  refine failIf_bind_benign fun hlen => ?_
  have hlen : 0 < stack.length := List.length_pos_iff.mpr (by simpa using hlen)
  rw [stacktop_eq_ok (by omega) (by omega), ok_bind]
  exact ErrorsIn.pure _

theorem opVerify_benign : ErrorsIn Thrown.Benign (opVerify stack) := by
  unfold opVerify
  refine failIf_bind_benign fun hlen => ?_
  have hlen : 0 < stack.length := List.length_pos_iff.mpr (by simpa using hlen)
  rw [stacktop_eq_ok (by omega) (by omega), ok_bind, popstack_eq_ok (by omega)]
  split
  · exact ErrorsIn.ok _
  · exact setError_benign _

theorem opToAltStack_benign (st : EvalState) : ErrorsIn Thrown.Benign (opToAltStack st) := by
  unfold opToAltStack
  refine failIf_bind_benign fun hlen => ?_
  have hlen : 0 < st.stack.length := List.length_pos_iff.mpr (by simpa using hlen)
  rw [stacktop_eq_ok (by omega) (by omega), ok_bind, popstack_eq_ok hlen, ok_bind]
  exact ErrorsIn.pure _

theorem opFromAltStack_benign (st : EvalState) : ErrorsIn Thrown.Benign (opFromAltStack st) := by
  unfold opFromAltStack
  refine failIf_bind_benign fun hlen => ?_
  have hlen : 0 < st.altstack.length := List.length_pos_iff.mpr (by simpa using hlen)
  rw [stacktop_eq_ok (by omega) (by omega), ok_bind, popstack_eq_ok hlen, ok_bind]
  exact ErrorsIn.pure _

/-! ## Bitwise logic, equality and byte strings -/

theorem opBitwise_benign (f : UInt8 → UInt8 → UInt8) :
    ErrorsIn Thrown.Benign (opBitwise f stack) := by
  unfold opBitwise
  refine failIf_bind_benign fun hlen => ?_
  have hlen : 2 ≤ stack.length := by simp at hlen; omega
  rw [stacktop_eq_ok (by omega) (by omega), ok_bind, stacktop_eq_ok (by omega) (by omega),
    ok_bind]
  refine failIf_bind_benign fun _ => ?_
  rw [setStacktop_eq_ok (by omega) (by omega), ok_bind, popstack_eq_ok (by simp; omega)]
  exact ErrorsIn.ok _

theorem opEqual_benign (verify : Bool) : ErrorsIn Thrown.Benign (opEqual verify stack) := by
  unfold opEqual
  refine failIf_bind_benign fun hlen => ?_
  have hlen : 2 ≤ stack.length := by simp at hlen; omega
  rw [stacktop_eq_ok (by omega) (by omega), ok_bind, stacktop_eq_ok (by omega) (by omega),
    ok_bind, popstack_eq_ok (by omega), ok_bind, popstack_eq_ok (by simp; omega), ok_bind]
  dsimp only
  split
  · exact ErrorsIn.pure _
  · split
    · rw [popstack_eq_ok (by simp)]
      exact ErrorsIn.ok _
    · exact setError_benign _

theorem opCat_benign : ErrorsIn Thrown.Benign (opCat stack) := by
  unfold opCat
  refine failIf_bind_benign fun hlen => ?_
  have hlen : 2 ≤ stack.length := by simp at hlen; omega
  rw [stacktop_eq_ok (by omega) (by omega), ok_bind, stacktop_eq_ok (by omega) (by omega),
    ok_bind]
  refine failIf_bind_benign fun _ => ?_
  rw [setStacktop_eq_ok (by omega) (by omega), ok_bind, popstack_eq_ok (by simp; omega)]
  exact ErrorsIn.ok _

theorem opSplit_benign (fRequireMinimal : Bool) :
    ErrorsIn Thrown.Benign (opSplit fRequireMinimal stack) := by
  unfold opSplit
  refine failIf_bind_benign fun hlen => ?_
  have hlen : 2 ≤ stack.length := by simp at hlen; omega
  rw [stacktop_eq_ok (by omega) (by omega), ok_bind, stacktop_eq_ok (by omega) (by omega),
    ok_bind]
  refine ErrorsIn.bind (ofVch_benign _ _ _) fun bn _ => ?_
  refine failIf_bind_benign fun _ => ?_
  rw [setStacktop_eq_ok (by omega) (by omega), ok_bind,
    setStacktop_eq_ok (by omega) (by simp; omega)]
  exact ErrorsIn.ok _

theorem opReverseBytes_benign : ErrorsIn Thrown.Benign (opReverseBytes stack) := by
  unfold opReverseBytes
  refine failIf_bind_benign fun hlen => ?_
  have hlen : 0 < stack.length := List.length_pos_iff.mpr (by simpa using hlen)
  rw [stacktop_eq_ok (by omega) (by omega), ok_bind, setStacktop_eq_ok (by omega) (by omega)]
  exact ErrorsIn.ok _

/-- `OP_NUM2BIN`: the number is re-encoded in place on the stack left after
popping the size, which still holds it. -/
theorem opNum2Bin_benign (fRequireMinimal : Bool) :
    ErrorsIn Thrown.Benign (opNum2Bin fRequireMinimal stack) := by
  unfold opNum2Bin
  refine failIf_bind_benign fun hlen => ?_
  have hlen : 2 ≤ stack.length := by simp at hlen; omega
  rw [stacktop_eq_ok (by omega) (by omega), ok_bind]
  refine ErrorsIn.bind (ofVch_benign _ _ _) fun bn _ => ?_
  refine failIf_bind_benign fun _ => ?_
  rw [popstack_eq_ok (by omega), ok_bind, stacktop_eq_ok (by omega) (by simp; omega), ok_bind]
  dsimp only
  rw [setStacktop_eq_ok (by omega) (by simp; omega), ok_bind]
  refine failIf_bind_benign fun _ => ?_
  split
  · exact ErrorsIn.pure _
  · rw [setStacktop_eq_ok (by omega) (by simp; omega)]
    exact ErrorsIn.ok _

theorem opBin2Num_benign : ErrorsIn Thrown.Benign (opBin2Num stack) := by
  unfold opBin2Num
  refine failIf_bind_benign fun hlen => ?_
  have hlen : 0 < stack.length := List.length_pos_iff.mpr (by simpa using hlen)
  rw [stacktop_eq_ok (by omega) (by omega), ok_bind]
  dsimp only
  rw [setStacktop_eq_ok (by omega) (by omega), ok_bind]
  exact failIf_bind_benign fun _ => ErrorsIn.pure _

theorem opHash_benign (h : valtype → valtype) : ErrorsIn Thrown.Benign (opHash h stack) := by
  unfold opHash
  refine failIf_bind_benign fun hlen => ?_
  have hlen : 0 < stack.length := List.length_pos_iff.mpr (by simpa using hlen)
  rw [stacktop_eq_ok (by omega) (by omega), ok_bind, popstack_eq_ok hlen, ok_bind]
  exact ErrorsIn.pure _

end Stack

/-! ## Numeric opcodes

An operand read with the default size limit has at most 4 bytes, so its
magnitude is below `2^32`; sums, differences, negations, quotients and
remainders of such values are far inside `int64_t`. -/

/-- The opcodes of the unary numeric `case` group of `EvalScript`. -/
def unaryNumOpcodes : List Opcode :=
  [.OP_1ADD, .OP_1SUB, .OP_NEGATE, .OP_ABS, .OP_NOT, .OP_0NOTEQUAL]

/-- The opcodes of the binary numeric `case` group of `EvalScript`. -/
def binaryNumOpcodes : List Opcode :=
  [.OP_ADD, .OP_SUB, .OP_DIV, .OP_MOD, .OP_BOOLAND, .OP_BOOLOR, .OP_NUMEQUAL,
    .OP_NUMEQUALVERIFY, .OP_NUMNOTEQUAL, .OP_LESSTHAN, .OP_GREATERTHAN,
    .OP_LESSTHANOREQUAL, .OP_GREATERTHANOREQUAL, .OP_MIN, .OP_MAX]

theorem ofVch_default_natAbs_lt {vch : valtype} {fRequireMinimal : Bool} {bn : CScriptNum}
    (h : ofVch vch fRequireMinimal = .ok bn) : bn.m_value.natAbs < 2 ^ 32 := by
  simpa [MAXIMUM_ELEMENT_SIZE] using ofVch_natAbs_lt h

/-- No unary operation overflows on an operand below `2^32`. -/
theorem unaryOp_benign {op : Opcode} (hop : op ∈ unaryNumOpcodes) {bn : CScriptNum}
    (hbn : bn.m_value.natAbs < 2 ^ 32) : ErrorsIn Thrown.Benign (unaryOp op bn) := by
  have hmin : bn.m_value ≠ INT64_MIN := by
    unfold INT64_MIN
    omega
  simp only [unaryNumOpcodes, List.mem_cons, List.not_mem_nil, or_false] at hop
  rcases hop with rfl | rfl | rfl | rfl | rfl | rfl
  · rw [unaryOp, addAssign_eq_ok (inInt64_of_natAbs_lt (by omega))]
    exact ErrorsIn.ok _
  · rw [unaryOp, subAssign_eq_ok (inInt64_of_natAbs_lt (by omega))]
    exact ErrorsIn.ok _
  · rw [unaryOp, neg_eq_ok hmin]
    exact ErrorsIn.ok _
  · -- `OP_ABS` negates a negative operand only
    rw [unaryOp]
    split
    · rw [neg_eq_ok hmin]
      exact ErrorsIn.ok _
    · exact ErrorsIn.ok _
  · exact ErrorsIn.ok _
  · exact ErrorsIn.ok _

/-- No binary operation overflows on operands below `2^32`; division and
remainder by zero are script errors before they reach `int64_t`. -/
theorem binaryOp_benign {op : Opcode} (hop : op ∈ binaryNumOpcodes) {bn1 bn2 : CScriptNum}
    (h1 : bn1.m_value.natAbs < 2 ^ 32) (h2 : bn2.m_value.natAbs < 2 ^ 32) :
    ErrorsIn Thrown.Benign (binaryOp op bn1 bn2) := by
  -- the quotient and the remainder are at most the dividend
  have hdiv : (bn1.m_value.tdiv bn2.m_value).natAbs < 2 ^ 32 := by
    rw [Int.natAbs_tdiv]
    exact Nat.lt_of_le_of_lt (Nat.div_le_self _ _) h1
  have hmod : (bn1.m_value.tmod bn2.m_value).natAbs < 2 ^ 32 := by
    rw [Int.natAbs_tmod]
    exact Nat.lt_of_le_of_lt (Nat.mod_le _ _) h1
  simp only [binaryNumOpcodes, List.mem_cons, List.not_mem_nil, or_false] at hop
  rcases hop with rfl | rfl | rfl | rfl | hop
  · rw [binaryOp, add, ofInt64_eq_ok (inInt64_of_natAbs_lt (by omega))]
    exact ErrorsIn.ok _
  · rw [binaryOp, sub, ofInt64_eq_ok (inInt64_of_natAbs_lt (by omega))]
    exact ErrorsIn.ok _
  · rw [binaryOp]
    split
    · exact setError_benign _
    · rename_i hb
      rw [div_eq_ok hb (inInt64_of_natAbs_lt (by omega))]
      exact ErrorsIn.ok _
  · rw [binaryOp]
    split
    · exact setError_benign _
    · rename_i hb
      rw [mod_eq_ok hb (by omega) (inInt64_of_natAbs_lt (by omega))]
      exact ErrorsIn.ok _
  · -- the comparisons and the boolean operations cannot fail
    rcases hop with rfl | rfl | rfl | rfl | rfl | rfl | rfl | rfl | rfl | rfl | rfl
    all_goals exact ErrorsIn.ok _

section Numeric

variable (fRequireMinimal : Bool) (stack : List valtype)

theorem opUnaryNum_benign {op : Opcode} (hop : op ∈ unaryNumOpcodes) :
    ErrorsIn Thrown.Benign (opUnaryNum op fRequireMinimal stack) := by
  unfold opUnaryNum
  refine failIf_bind_benign fun hlen => ?_
  have hlen : 0 < stack.length := List.length_pos_iff.mpr (by simpa using hlen)
  rw [stacktop_eq_ok (by omega) (by omega), ok_bind]
  refine ErrorsIn.bind (ofVch_benign _ _ _) fun bn hbn => ?_
  refine ErrorsIn.bind (unaryOp_benign hop (ofVch_default_natAbs_lt hbn)) fun r _ => ?_
  rw [popstack_eq_ok hlen, ok_bind]
  exact ErrorsIn.pure _

theorem opBinaryNum_benign {op : Opcode} (hop : op ∈ binaryNumOpcodes) :
    ErrorsIn Thrown.Benign (opBinaryNum op fRequireMinimal stack) := by
  unfold opBinaryNum
  refine failIf_bind_benign fun hlen => ?_
  have hlen : 2 ≤ stack.length := by simp at hlen; omega
  rw [stacktop_eq_ok (by omega) (by omega), ok_bind]
  refine ErrorsIn.bind (ofVch_benign _ _ _) fun bn1 h1 => ?_
  rw [stacktop_eq_ok (by omega) (by omega), ok_bind]
  refine ErrorsIn.bind (ofVch_benign _ _ _) fun bn2 h2 => ?_
  refine ErrorsIn.bind (binaryOp_benign hop (ofVch_default_natAbs_lt h1)
    (ofVch_default_natAbs_lt h2)) fun bn _ => ?_
  rw [popstack_eq_ok (by omega), ok_bind, popstack_eq_ok (by simp; omega), ok_bind]
  dsimp only
  split
  · exact ErrorsIn.pure _
  · -- `OP_NUMEQUALVERIFY` checks the result it has just pushed
    rw [stacktop_eq_ok (by omega) (by simp [pushNum]), ok_bind]
    split
    · rw [popstack_eq_ok (by simp [pushNum])]
      exact ErrorsIn.ok _
    · exact setError_benign _

theorem opWithin_benign : ErrorsIn Thrown.Benign (opWithin fRequireMinimal stack) := by
  unfold opWithin
  refine failIf_bind_benign fun hlen => ?_
  have hlen : 3 ≤ stack.length := by simpa using hlen
  rw [stacktop_eq_ok (by omega) (by omega), ok_bind]
  refine ErrorsIn.bind (ofVch_benign _ _ _) fun bn1 _ => ?_
  rw [stacktop_eq_ok (by omega) (by omega), ok_bind]
  refine ErrorsIn.bind (ofVch_benign _ _ _) fun bn2 _ => ?_
  rw [stacktop_eq_ok (by omega) (by omega), ok_bind]
  refine ErrorsIn.bind (ofVch_benign _ _ _) fun bn3 _ => ?_
  rw [popstack_eq_ok (by omega), ok_bind, popstack_eq_ok (by simp; omega), ok_bind,
    popstack_eq_ok (by simp; omega), ok_bind]
  exact ErrorsIn.pure _

end Numeric


/-! ## Control and lock times -/

theorem opIf_benign (notIf : Bool) (flags : UInt32) (fExec : Bool) (st : EvalState) :
    ErrorsIn Thrown.Benign (opIf notIf flags fExec st) := by
  unfold opIf
  split
  · exact ErrorsIn.pure _
  · refine failIf_bind_benign fun hlen => ?_
    have hlen : 0 < st.stack.length := List.length_pos_iff.mpr (by simpa using hlen)
    rw [stacktop_eq_ok (by omega) (by omega), ok_bind]
    refine failIf_bind_benign fun _ => failIf_bind_benign fun _ => ?_
    rw [popstack_eq_ok hlen, ok_bind]
    exact ErrorsIn.pure _

theorem opUpgradableNop_benign (flags : UInt32) :
    ErrorsIn Thrown.Benign (opUpgradableNop flags) :=
  failIf_benign _ _

theorem opElse_benign (st : EvalState) : ErrorsIn Thrown.Benign (opElse st) := by
  unfold opElse
  refine failIf_bind_benign fun hne => ?_
  obtain ⟨c, hc⟩ := st.vfExec.toggle_top_ok hne
  rw [hc, ok_bind]
  exact ErrorsIn.pure _

theorem opEndIf_benign (st : EvalState) : ErrorsIn Thrown.Benign (opEndIf st) := by
  unfold opEndIf
  refine failIf_bind_benign fun hne => ?_
  obtain ⟨c, hc⟩ := st.vfExec.pop_back_ok hne
  rw [hc, ok_bind]
  exact ErrorsIn.pure _

section Env

variable (env : EvalEnv)

theorem opCheckLockTimeVerify_benign (stack : List valtype) :
    ErrorsIn Thrown.Benign (opCheckLockTimeVerify env stack) := by
  unfold opCheckLockTimeVerify
  split
  · exact ErrorsIn.pure _
  · refine failIf_bind_benign fun hlen => ?_
    have hlen : 0 < stack.length := List.length_pos_iff.mpr (by simpa using hlen)
    rw [stacktop_eq_ok (by omega) (by omega), ok_bind]
    exact ErrorsIn.bind (ofVch_benign _ _ _) fun _ _ =>
      failIf_bind_benign fun _ => failIf_benign _ _

theorem opCheckSequenceVerify_benign (stack : List valtype) :
    ErrorsIn Thrown.Benign (opCheckSequenceVerify env stack) := by
  unfold opCheckSequenceVerify
  split
  · exact ErrorsIn.pure _
  · refine failIf_bind_benign fun hlen => ?_
    have hlen : 0 < stack.length := List.length_pos_iff.mpr (by simpa using hlen)
    rw [stacktop_eq_ok (by omega) (by omega), ok_bind]
    refine ErrorsIn.bind (ofVch_benign _ _ _) fun _ _ => failIf_bind_benign fun _ => ?_
    split
    · exact ErrorsIn.pure _
    · exact failIf_benign _ _

/-! ## Signatures -/

theorem EvalChecksig_benign (vchSig vchPubKey : valtype) (scriptCode : CScript)
    (metrics : ScriptExecutionMetrics) :
    ErrorsIn Thrown.Benign (EvalChecksig env vchSig vchPubKey scriptCode metrics) := by
  unfold EvalChecksig
  refine ErrorsIn.bind (CheckTransactionSignatureEncoding_benign _ _ _) fun _ _ => ?_
  refine ErrorsIn.bind (CheckPubKeyEncoding_benign _ _) fun _ _ => ?_
  split
  · exact ErrorsIn.pure _
  · exact failIf_bind_benign fun _ => ErrorsIn.pure _

/-- The end of the signature opcodes: on the stack `S` with the result
pushed, the `VERIFY` forms pop the result again. -/
theorem verifyTail_benign {α : Type} {S : List valtype} (hS : 0 < S.length)
    (verify fSuccess : Bool) (e : ScriptError) {k : List valtype → Except Thrown α}
    (hk : ∀ s, ErrorsIn Thrown.Benign (k s)) :
    ErrorsIn Thrown.Benign (if (!verify) = true then pure S >>= k
      else if fSuccess = true then popstack S >>= k else setError e >>= k) := by
  split
  · exact hk S
  · split
    · rw [popstack_eq_ok hS, ok_bind]
      exact hk _
    · exact setError_benign e

theorem opCheckSig_benign (verify : Bool) (st : EvalState) :
    ErrorsIn Thrown.Benign (opCheckSig verify env st) := by
  unfold opCheckSig
  refine failIf_bind_benign fun hlen => ?_
  have hlen : 2 ≤ st.stack.length := by simp at hlen; omega
  rw [stacktop_eq_ok (by omega) (by omega), ok_bind, stacktop_eq_ok (by omega) (by omega),
    ok_bind]
  refine ErrorsIn.bind (EvalChecksig_benign _ _ _ _ _) fun ⟨fSuccess, metrics⟩ _ => ?_
  dsimp only
  rw [popstack_eq_ok (by omega), ok_bind, popstack_eq_ok (by simp; omega), ok_bind]
  exact verifyTail_benign (by simp) _ _ _ fun _ => ErrorsIn.pure _

theorem opCheckDataSig_benign (verify : Bool) (st : EvalState) :
    ErrorsIn Thrown.Benign (opCheckDataSig verify env st) := by
  unfold opCheckDataSig
  refine failIf_bind_benign fun hlen => ?_
  have hlen : 3 ≤ st.stack.length := by simpa using hlen
  rw [stacktop_eq_ok (by omega) (by omega), ok_bind, stacktop_eq_ok (by omega) (by omega),
    ok_bind, stacktop_eq_ok (by omega) (by omega), ok_bind]
  refine ErrorsIn.bind (CheckDataSignatureEncoding_benign _ _ _) fun _ _ => ?_
  refine ErrorsIn.bind (CheckPubKeyEncoding_benign _ _) fun _ _ => ?_
  -- the join point after the signature check: pop the arguments, push the result
  lift_lets
  intro jp _
  have hjp : ∀ r, ErrorsIn Thrown.Benign (jp r) := by
    rintro ⟨fSuccess, metrics⟩
    dsimp only [jp]
    rw [popstack_eq_ok (by omega), ok_bind, popstack_eq_ok (by simp; omega), ok_bind,
      popstack_eq_ok (by simp; omega), ok_bind]
    exact verifyTail_benign (by simp) _ _ _ fun _ => ErrorsIn.pure _
  split
  · exact ErrorsIn.bind (ErrorsIn.pure _) fun r _ => hjp r
  · exact failIf_bind_benign fun _ => ErrorsIn.bind (ErrorsIn.pure _) fun r _ => hjp r

/-! ## `OP_CHECKMULTISIG`

The arguments lie at fixed depths: the keys from `idxTopKey`, the signatures
from `idxTopSig`, the dummy element at `idxDummy`. The opcode checks that the
stack reaches the dummy before it reads anything below the counts, and every
loop reads at depths between those bounds: the Schnorr loop because it stops
after `nSigsCount` signatures and rejects a key index at or above
`nKeysCount`, the legacy loop because it keeps at least as many keys as
signatures left. -/

theorem popstackN_eq_ok : ∀ (n : Nat) (stack : List valtype), n ≤ stack.length →
    ∃ s, popstackN n stack = .ok s ∧ s.length = stack.length - n
  | 0, stack, _ => ⟨stack, rfl, rfl⟩
  | n + 1, stack, h => by
    obtain ⟨s, hs, hslen⟩ := popstackN_eq_ok n stack.dropLast (by simp; omega)
    refine ⟨s, ?_, by simp at hslen; omega⟩
    rw [popstackN, popstack_eq_ok (by omega), ok_bind, hs]

theorem areAllSignaturesNull_benign {stack : List valtype} {idxTopSig : Nat} :
    ∀ (is : List Nat), (∀ i ∈ is, 1 ≤ idxTopSig + i ∧ idxTopSig + i ≤ stack.length) →
      ErrorsIn Thrown.Benign (areAllSignaturesNull stack idxTopSig is)
  | [], _ => ErrorsIn.ok _
  | i :: is, h => by
    have hi := h i List.mem_cons_self
    rw [areAllSignaturesNull, stacktop_eq_ok (by omega) (by omega), ok_bind]
    split
    · exact ErrorsIn.pure _
    · exact areAllSignaturesNull_benign is fun j hj => h j (List.mem_cons_of_mem i hj)

/-- The Schnorr loop reads signature `iSig` below `idxBottomSig` and a key
below `idxBottomKey` at an index under `nKeysCount`; `iSig + k` stays at most
`idxBottomSig`. -/
theorem schnorrMultisigLoop_benign (stack : List valtype) (scriptCode : CScript)
    (checkBits nKeysCount idxBottomSig idxBottomKey : Nat) (hsig : idxBottomSig ≤ stack.length)
    (hkey : nKeysCount ≤ idxBottomKey) (hkey' : idxBottomKey ≤ stack.length) :
    ∀ (k iSig iKey : Nat) (metrics : ScriptExecutionMetrics), iSig + k ≤ idxBottomSig →
      ErrorsIn Thrown.Benign (schnorrMultisigLoop env stack scriptCode checkBits nKeysCount
        idxBottomSig idxBottomKey k iSig iKey metrics)
  | 0, _, _, _, _ => ErrorsIn.ok _
  | k + 1, iSig, iKey, metrics, hk => by
    rw [schnorrMultisigLoop]
    split
    · exact setError_benign _
    · dsimp only
      refine failIf_bind_benign fun hidx => ?_
      have hidx := Nat.lt_of_not_le (by simpa using hidx)
      rw [stacktop_eq_ok (by omega) (by omega), ok_bind, stacktop_eq_ok (by omega) (by omega),
        ok_bind]
      refine ErrorsIn.bind (CheckTransactionSchnorrSignatureEncoding_benign _ _) fun _ _ => ?_
      refine ErrorsIn.bind (CheckPubKeyEncoding_benign _ _) fun _ _ => ?_
      exact failIf_bind_benign fun _ => schnorrMultisigLoop_benign stack scriptCode checkBits
        nKeysCount idxBottomSig idxBottomKey hsig hkey hkey' k (iSig + 1) _ _ (by omega)

theorem schnorrMultisig_benign (stack : List valtype) (scriptCode : CScript)
    (idxTopKey idxTopSig idxDummy nKeysCount nSigsCount : Nat)
    (metrics : ScriptExecutionMetrics) (hkey : 1 ≤ idxTopKey)
    (hkeys : idxTopKey + nKeysCount ≤ stack.length + 1) (hsig : 1 ≤ idxTopSig)
    (hsigs : idxTopSig + nSigsCount ≤ stack.length + 1) (hdummy : 1 ≤ idxDummy)
    (hdummy' : idxDummy ≤ stack.length) :
    ErrorsIn Thrown.Benign (schnorrMultisig env stack scriptCode idxTopKey idxTopSig idxDummy
      nKeysCount nSigsCount metrics) := by
  unfold schnorrMultisig
  rw [stacktop_eq_ok (by omega) (by omega), ok_bind]
  refine ErrorsIn.bind (DecodeBitfield_benign _ _) fun checkBits _ => ?_
  refine failIf_bind_benign fun _ => ?_
  dsimp only
  refine ErrorsIn.bind (schnorrMultisigLoop_benign env stack scriptCode checkBits nKeysCount _ _
    (by omega) (by omega) (by omega) nSigsCount 0 0 metrics (by omega)) fun _ _ => ?_
  exact failIf_bind_benign fun _ => ErrorsIn.pure _

/-- The legacy loop: `nSigsRemaining ≤ nKeysRemaining` (carried by the loop
itself) keeps the key read above the bottom key while a signature is left. -/
theorem legacyMultisigLoop_benign (stack : List valtype) (scriptCode : CScript)
    (idxTopSig idxTopKey nSigsCount nKeysCount : Nat) (hsig : 1 ≤ idxTopSig)
    (hsigs : idxTopSig + nSigsCount ≤ stack.length + 1) (hkey : 1 ≤ idxTopKey)
    (hkeys : idxTopKey + nKeysCount ≤ stack.length + 1) (nSigsRemaining nKeysRemaining : Nat)
    (hinv : nSigsRemaining ≤ nKeysRemaining) (hs : nSigsRemaining ≤ nSigsCount)
    (hk : nKeysRemaining ≤ nKeysCount) :
    ErrorsIn Thrown.Benign (legacyMultisigLoop env stack scriptCode idxTopSig idxTopKey
      nSigsCount nKeysCount nSigsRemaining nKeysRemaining hinv) := by
  induction nKeysRemaining using Nat.strongRecOn generalizing nSigsRemaining with
  | ind nKeysRemaining ih =>
    unfold legacyMultisigLoop
    split
    · exact ErrorsIn.ok _
    · rw [stacktop_eq_ok (by omega) (by omega), ok_bind, stacktop_eq_ok (by omega) (by omega),
        ok_bind]
      refine ErrorsIn.bind (CheckTransactionECDSASignatureEncoding_benign _ _ _) fun _ _ => ?_
      refine ErrorsIn.bind (CheckPubKeyEncoding_benign _ _) fun _ _ => ?_
      dsimp only
      -- on whether the key matched, then on whether too few keys are left
      split
      all_goals
        split
        · exact ErrorsIn.ok _
        · exact ih _ (by omega) _ _ (by omega) (by omega)

theorem legacyMultisig_benign (stack : List valtype) (scriptCode : CScript)
    (idxTopKey idxTopSig nKeysCount nSigsCount : Nat) (hcount : nSigsCount ≤ nKeysCount)
    (metrics : ScriptExecutionMetrics) (hkey : 1 ≤ idxTopKey)
    (hkeys : idxTopKey + nKeysCount ≤ stack.length + 1) (hsig : 1 ≤ idxTopSig)
    (hsigs : idxTopSig + nSigsCount ≤ stack.length + 1) :
    ErrorsIn Thrown.Benign (legacyMultisig env stack scriptCode idxTopKey idxTopSig nKeysCount
      nSigsCount hcount metrics) := by
  unfold legacyMultisig
  refine ErrorsIn.bind (ErrorsIn.foldlM _ (fun sc k hk => ?_) _) fun _ _ => ?_
  · -- the offsets `k` are those of `List.range nSigsCount`, as `Int`s
    obtain ⟨i, hi, rfl⟩ : ∃ i, i < nSigsCount ∧ k = (i : Int) := by simpa using hk
    rw [stacktop_eq_ok (by omega) (by omega), ok_bind]
    exact ErrorsIn.pure _
  · refine ErrorsIn.bind (legacyMultisigLoop_benign env stack _ idxTopSig idxTopKey nSigsCount
      nKeysCount hsig hsigs hkey hkeys _ _ hcount (Nat.le_refl _) (Nat.le_refl _)) fun _ _ => ?_
    refine ErrorsIn.bind (areAllSignaturesNull_benign _ fun i hi => ?_) fun _ _ => ?_
    · rw [List.mem_range] at hi
      omega
    · exact failIf_bind_benign fun _ => ErrorsIn.pure _

theorem opCheckMultiSig_benign (verify : Bool) (st : EvalState) :
    ErrorsIn Thrown.Benign (opCheckMultiSig verify env st) := by
  unfold opCheckMultiSig
  lift_lets
  intro stack idxKeyCount idxTopKey scriptCode
  dsimp -zeta only [stack, idxKeyCount, idxTopKey, scriptCode]
  refine failIf_bind_benign fun hlen => ?_
  have hlen : 0 < st.stack.length := List.length_pos_iff.mpr (by simpa using hlen)
  rw [stacktop_eq_ok (by omega) (by omega), ok_bind]
  refine ErrorsIn.bind (ofVch_benign _ _ _) fun bnKeys _ => ?_
  lift_lets
  intro nKeysCount nOpCount idxSigCount idxTopSig
  dsimp -zeta only [nKeysCount, nOpCount, idxSigCount, idxTopSig]
  refine failIf_bind_benign fun hkeys => failIf_bind_benign fun _ => failIf_bind_benign fun hlen2 => ?_
  have hkeys : 0 ≤ bnKeys.getint ∧ bnKeys.getint ≤ 20 := by
    simpa [MAX_PUBKEYS_PER_MULTISIG] using hkeys
  have hlen2 : 1 + 1 + bnKeys.getint.toNat ≤ st.stack.length := by simpa using hlen2
  rw [stacktop_eq_ok (by omega) (by omega), ok_bind]
  refine ErrorsIn.bind (ofVch_benign _ _ _) fun bnSigs _ => ?_
  lift_lets
  intro nSigsCount idxDummy jp
  dsimp -zeta only [nSigsCount, idxDummy]
  split
  · exact setError_benign _
  · rename_i hsig
    have hsig : 0 ≤ bnSigs.getint ∧ bnSigs.getint ≤ bnKeys.getint := by omega
    lift_lets
    intro jp'
    refine failIf_bind_benign fun hlen3 => ?_
    have hlen3 : 1 + 1 + bnKeys.getint.toNat + 1 + bnSigs.getint.toNat ≤ st.stack.length := by
      simpa using hlen3
    -- after either path: pop every argument and push the result
    have hjp : ∀ r, ErrorsIn Thrown.Benign (jp r) := by
      intro r
      dsimp only [jp]
      obtain ⟨s, hs, -⟩ := popstackN_eq_ok _ st.stack hlen3
      rw [hs, ok_bind]
      exact verifyTail_benign (by simp) _ _ _ fun _ => ErrorsIn.pure _
    -- the Schnorr path when the dummy element is not empty, the legacy one otherwise
    have hjp' : ∀ schnorr, ErrorsIn Thrown.Benign (jp' schnorr) := by
      intro schnorr
      dsimp only [jp']
      split
      · exact ErrorsIn.bind (ErrorsIn.map _ (schnorrMultisig_benign env _ _ _ _ _ _ _ _
          (by omega) (by omega) (by omega) (by omega) (by omega) hlen3)) fun r _ => hjp r
      · exact ErrorsIn.bind (legacyMultisig_benign env _ _ _ _ _ _ _ _ (by omega) (by omega)
          (by omega) (by omega)) fun r _ => hjp r
    split
    · rw [stacktop_eq_ok (by omega) (by omega), ok_bind]
      exact ErrorsIn.bind (ErrorsIn.pure _) fun _ _ => hjp' _
    · exact ErrorsIn.bind (ErrorsIn.pure _) fun _ _ => hjp' _

/-! ## The `switch` and the loop -/

theorem onStack_benign (st : EvalState) {f : List valtype → Except Thrown (List valtype)}
    (hf : ErrorsIn Thrown.Benign (f st.stack)) : ErrorsIn Thrown.Benign (onStack st f) :=
  ErrorsIn.bind hf fun _ _ => ErrorsIn.pure _

/-- Every case of the `switch` is one of the families above. -/
theorem execOpcode_benign (opcode : UInt8) (nextPc : CScript) (fExec : Bool) (st : EvalState) :
    ErrorsIn Thrown.Benign (execOpcode env opcode nextPc fExec st) := by
  unfold execOpcode
  split
  -- each alternative is tried up to reducible unfolding only, so that a
  -- family lemma is never matched against the body of another family
  all_goals first
    | with_reducible exact ErrorsIn.ok _
    | with_reducible exact setError_benign _
    | with_reducible exact opIf_benign _ _ _ _
    | with_reducible exact opElse_benign _
    | with_reducible exact opEndIf_benign _
    | with_reducible exact opToAltStack_benign _
    | with_reducible exact opFromAltStack_benign _
    | with_reducible exact opCheckSig_benign env _ _
    | with_reducible exact opCheckDataSig_benign env _ _
    | with_reducible exact opCheckMultiSig_benign env _ _
    | with_reducible exact ErrorsIn.bind (opCheckLockTimeVerify_benign env _) fun _ _ => ErrorsIn.pure _
    | with_reducible exact ErrorsIn.bind (opCheckSequenceVerify_benign env _) fun _ _ => ErrorsIn.pure _
    | with_reducible exact ErrorsIn.bind (opUpgradableNop_benign _) fun _ _ => ErrorsIn.pure _
    | with_reducible refine onStack_benign st ?_
      first
        | with_reducible exact opVerify_benign _
        | with_reducible exact op2Drop_benign _
        | with_reducible exact op2Dup_benign _
        | with_reducible exact op3Dup_benign _
        | with_reducible exact op2Over_benign _
        | with_reducible exact op2Rot_benign _
        | with_reducible exact op2Swap_benign _
        | with_reducible exact opIfDup_benign _
        | with_reducible exact opDrop_benign _
        | with_reducible exact opDup_benign _
        | with_reducible exact opNip_benign _
        | with_reducible exact opOver_benign _
        | with_reducible exact opPickRoll_benign _ _ _
        | with_reducible exact opRot_benign _
        | with_reducible exact opSwap_benign _
        | with_reducible exact opTuck_benign _
        | with_reducible exact opSize_benign _
        | with_reducible exact opBitwise_benign _ _
        | with_reducible exact opEqual_benign _ _
        | with_reducible exact opUnaryNum_benign _ _ (by simp [unaryNumOpcodes])
        | with_reducible exact opBinaryNum_benign _ _ (by simp [binaryNumOpcodes])
        | with_reducible exact opWithin_benign _ _
        | with_reducible exact opHash_benign _ _
        | with_reducible exact opCat_benign _
        | with_reducible exact opSplit_benign _ _
        | with_reducible exact opReverseBytes_benign _
        | with_reducible exact opNum2Bin_benign _ _
        | with_reducible exact opBin2Num_benign _

/-- The assert of `CheckMinimalPush` is the condition under which the loop
calls it. -/
theorem CheckMinimalPush_benign (data : valtype) {opcode : UInt8} (h : opcode ≤ OP_PUSHDATA4) :
    ErrorsIn Thrown.Benign (CheckMinimalPush data opcode) := by
  have ha : assert (decide (opcode ≤ OP_PUSHDATA4)) = .ok () := assert_eq_ok.mpr (decide_eq_true h)
  unfold CheckMinimalPush
  rw [ha, ok_bind]
  -- every remaining branch returns
  (repeat' split) <;> exact ErrorsIn.pure _

theorem pushData_benign (fRequireMinimal : Bool) (ins : Instr) (st : EvalState)
    (h : ins.opcode ≤ OP_PUSHDATA4) : ErrorsIn Thrown.Benign (pushData fRequireMinimal ins st) := by
  unfold pushData
  dsimp only
  split
  · exact ErrorsIn.bind (CheckMinimalPush_benign _ h) fun _ _ =>
      failIf_bind_benign fun _ => ErrorsIn.pure _
  · exact ErrorsIn.pure _

/-- One iteration of the loop: a push opcode is pushed (under the condition
`CheckMinimalPush` asserts), anything else goes to the `switch`. -/
theorem step_benign (st : EvalState) (ins : Instr) : ErrorsIn Thrown.Benign (step env st ins) := by
  unfold step
  dsimp only
  refine failIf_bind_benign fun _ => failIf_bind_benign fun _ => failIf_bind_benign fun _ => ?_
  -- each branch ends with the stack-size check
  split
  · rename_i hpush
    exact ErrorsIn.bind (pushData_benign _ _ _ (by simp_all)) fun _ _ =>
      failIf_bind_benign fun _ => ErrorsIn.pure _
  · split
    · exact ErrorsIn.bind (execOpcode_benign env _ _ _ _) fun _ _ =>
        failIf_bind_benign fun _ => ErrorsIn.pure _
    · exact ErrorsIn.bind (ErrorsIn.pure _) fun _ _ => failIf_bind_benign fun _ => ErrorsIn.pure _

/-- The run lemma: the loop over the decoded instructions, from any state,
and the `BAD_OPCODE` check after it. -/
theorem evalScriptBody_benign (script : CScript) (init : EvalState) :
    ErrorsIn Thrown.Benign (evalScriptBody env script init) := by
  unfold evalScriptBody
  refine ErrorsIn.bind (ErrorsIn.foldlM _ (fun st ins _ => step_benign env st ins) init)
    fun _ _ => ?_
  exact failIf_bind_benign fun _ => ErrorsIn.pure _

end Env

/-! ## `EvalScript` -/

section EvalScript

variable (crypto : Crypto) (stack : List valtype) (script : CScript) (flags : UInt32)
  (checker : BaseSignatureChecker) (metrics : ScriptExecutionMetrics)

/-- The `try` block of `EvalScript`, on every stack, script, flag set and
checker, leaves its normal path only with a script error or with the
`scriptnum_error` of an operand: no stack access is out of range, no
`popstack` meets an empty stack, no assert fails and no `int64_t` operation
overflows. So what its `catch (...)` turns into `UNKNOWN` is always a
`scriptnum_error`. -/
theorem EvalScript_try_benign :
    ErrorsIn Thrown.Benign (evalScriptBody ⟨crypto, flags, checker⟩ script
      { stack := stack, pbegincodehash := script, metrics := metrics }) :=
  evalScriptBody_benign _ script _

/-- `EvalScript` only ever fails with a script error: the one exception its
body can throw is caught, and nothing aborts. -/
theorem EvalScript_errorsIn_fail :
    ErrorsIn (fun t => ∃ e, t = .fail e) (EvalScript crypto stack script flags checker metrics) := by
  have hbody := evalScriptBody_benign ⟨crypto, flags, checker⟩ script
    { stack := stack, pbegincodehash := script, metrics := metrics }
  unfold EvalScript
  split
  · exact ErrorsIn.error ⟨_, rfl⟩
  · split
    · exact ErrorsIn.error ⟨_, rfl⟩
    · -- an error the `catch` does not see is a script error, since the body
      -- neither aborts nor throws anything else
      rename_i t hnexn hbodyeq
      have hben := hbody t hbodyeq
      cases t with
      | fail e => exact ErrorsIn.error ⟨e, rfl⟩
      | exn x => exact absurd rfl (hnexn x)
      | abort => exact absurd hben id
    · split
      · exact ErrorsIn.error ⟨_, rfl⟩
      · exact ErrorsIn.ok _

end EvalScript

end Script

end BitcoinAbc
