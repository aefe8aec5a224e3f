import Mathlib
import BitcoinAbc.Lib.Bitmask
import BitcoinAbc.Lib.ExceptRefine

/-!
# Script data model: byte strings, opcodes, errors and flags

The vocabulary of the script interpreter (script/script.h, script_error.h,
script_flags.h):

- `valtype` and `CScript`: stack elements and scripts are byte strings; a
  `std::vector<uint8_t>` and a `prevector<28, uint8_t>` are both lists of bytes
  here.
- `Opcode`: the named members of `opcodetype` from `OP_1NEGATE` to
  `OP_REVERSEBYTES`, plus `other b` for every byte the enum does not name above
  the push range (and for the push bytes, which the interpreter handles before
  its `switch`). `Opcode.ofByte` is the cast `static_cast<opcodetype>` that
  `GetScriptOp` performs.
- `ScriptError`: the error codes `EvalScript`/`VerifyScript` report.
- The verification flags are the `uint32_t` bit masks of script_flags.h;
  `hasFlag flags f` is the test `(flags & f) != 0` the interpreter writes.
-/

namespace BitcoinAbc

/-- A stack element: `valtype = std::vector<uint8_t>`. -/
abbrev valtype := List UInt8

/-- A serialized script (`CScript`, a prevector of bytes). -/
abbrev CScript := List UInt8

namespace Script

/-! ## Limits (script.h) -/

/-- Maximum number of bytes pushable to the stack. -/
def MAX_SCRIPT_ELEMENT_SIZE : Nat := 520

/-- Maximum number of non-push operations per script. -/
def MAX_OPS_PER_SCRIPT : Int := 201

/-- Maximum number of public keys per multisig. -/
def MAX_PUBKEYS_PER_MULTISIG : Int := 20

/-- Maximum script length in bytes. -/
def MAX_SCRIPT_SIZE : Nat := 10000

/-- Maximum number of values on the script interpreter stack. -/
def MAX_STACK_SIZE : Nat := 1000

/-! ## Opcodes (script.h) -/

/-- The push opcodes and the bytes the interpreter compares opcodes against. -/
def OP_0 : UInt8 := 0x00
def OP_PUSHDATA1 : UInt8 := 0x4c
def OP_PUSHDATA2 : UInt8 := 0x4d
def OP_PUSHDATA4 : UInt8 := 0x4e
def OP_16_BYTE : UInt8 := 0x60
def OP_IF_BYTE : UInt8 := 0x63
def OP_ENDIF_BYTE : UInt8 := 0x68

/-- The named members of `opcodetype` above the push range; `other b` stands
for every other byte value (`opcodetype` can hold any byte). -/
inductive Opcode where
  | OP_1NEGATE | OP_RESERVED
  | OP_1 | OP_2 | OP_3 | OP_4 | OP_5 | OP_6 | OP_7 | OP_8
  | OP_9 | OP_10 | OP_11 | OP_12 | OP_13 | OP_14 | OP_15 | OP_16
  | OP_NOP | OP_VER | OP_IF | OP_NOTIF | OP_VERIF | OP_VERNOTIF
  | OP_ELSE | OP_ENDIF | OP_VERIFY | OP_RETURN
  | OP_TOALTSTACK | OP_FROMALTSTACK | OP_2DROP | OP_2DUP | OP_3DUP | OP_2OVER
  | OP_2ROT | OP_2SWAP | OP_IFDUP | OP_DEPTH | OP_DROP | OP_DUP | OP_NIP
  | OP_OVER | OP_PICK | OP_ROLL | OP_ROT | OP_SWAP | OP_TUCK
  | OP_CAT | OP_SPLIT | OP_NUM2BIN | OP_BIN2NUM | OP_SIZE
  | OP_INVERT | OP_AND | OP_OR | OP_XOR | OP_EQUAL | OP_EQUALVERIFY
  | OP_RESERVED1 | OP_RESERVED2
  | OP_1ADD | OP_1SUB | OP_2MUL | OP_2DIV | OP_NEGATE | OP_ABS | OP_NOT
  | OP_0NOTEQUAL
  | OP_ADD | OP_SUB | OP_MUL | OP_DIV | OP_MOD | OP_LSHIFT | OP_RSHIFT
  | OP_BOOLAND | OP_BOOLOR | OP_NUMEQUAL | OP_NUMEQUALVERIFY | OP_NUMNOTEQUAL
  | OP_LESSTHAN | OP_GREATERTHAN | OP_LESSTHANOREQUAL | OP_GREATERTHANOREQUAL
  | OP_MIN | OP_MAX | OP_WITHIN
  | OP_RIPEMD160 | OP_SHA1 | OP_SHA256 | OP_HASH160 | OP_HASH256
  | OP_CODESEPARATOR | OP_CHECKSIG | OP_CHECKSIGVERIFY | OP_CHECKMULTISIG
  | OP_CHECKMULTISIGVERIFY
  | OP_NOP1 | OP_CHECKLOCKTIMEVERIFY | OP_CHECKSEQUENCEVERIFY | OP_NOP4
  | OP_NOP5 | OP_NOP6 | OP_NOP7 | OP_NOP8 | OP_NOP9 | OP_NOP10
  | OP_CHECKDATASIG | OP_CHECKDATASIGVERIFY | OP_REVERSEBYTES
  | other (b : UInt8)
  deriving DecidableEq, Repr

namespace Opcode

/-- `static_cast<opcodetype>(byte)`: the enum member a byte denotes. -/
def ofByte (b : UInt8) : Opcode :=
  match b.toNat with
  | 0x4f => OP_1NEGATE | 0x50 => OP_RESERVED
  | 0x51 => OP_1 | 0x52 => OP_2 | 0x53 => OP_3 | 0x54 => OP_4
  | 0x55 => OP_5 | 0x56 => OP_6 | 0x57 => OP_7 | 0x58 => OP_8
  | 0x59 => OP_9 | 0x5a => OP_10 | 0x5b => OP_11 | 0x5c => OP_12
  | 0x5d => OP_13 | 0x5e => OP_14 | 0x5f => OP_15 | 0x60 => OP_16
  | 0x61 => OP_NOP | 0x62 => OP_VER | 0x63 => OP_IF | 0x64 => OP_NOTIF
  | 0x65 => OP_VERIF | 0x66 => OP_VERNOTIF | 0x67 => OP_ELSE
  | 0x68 => OP_ENDIF | 0x69 => OP_VERIFY | 0x6a => OP_RETURN
  | 0x6b => OP_TOALTSTACK | 0x6c => OP_FROMALTSTACK | 0x6d => OP_2DROP
  | 0x6e => OP_2DUP | 0x6f => OP_3DUP | 0x70 => OP_2OVER | 0x71 => OP_2ROT
  | 0x72 => OP_2SWAP | 0x73 => OP_IFDUP | 0x74 => OP_DEPTH | 0x75 => OP_DROP
  | 0x76 => OP_DUP | 0x77 => OP_NIP | 0x78 => OP_OVER | 0x79 => OP_PICK
  | 0x7a => OP_ROLL | 0x7b => OP_ROT | 0x7c => OP_SWAP | 0x7d => OP_TUCK
  | 0x7e => OP_CAT | 0x7f => OP_SPLIT | 0x80 => OP_NUM2BIN
  | 0x81 => OP_BIN2NUM | 0x82 => OP_SIZE
  | 0x83 => OP_INVERT | 0x84 => OP_AND | 0x85 => OP_OR | 0x86 => OP_XOR
  | 0x87 => OP_EQUAL | 0x88 => OP_EQUALVERIFY | 0x89 => OP_RESERVED1
  | 0x8a => OP_RESERVED2
  | 0x8b => OP_1ADD | 0x8c => OP_1SUB | 0x8d => OP_2MUL | 0x8e => OP_2DIV
  | 0x8f => OP_NEGATE | 0x90 => OP_ABS | 0x91 => OP_NOT
  | 0x92 => OP_0NOTEQUAL
  | 0x93 => OP_ADD | 0x94 => OP_SUB | 0x95 => OP_MUL | 0x96 => OP_DIV
  | 0x97 => OP_MOD | 0x98 => OP_LSHIFT | 0x99 => OP_RSHIFT
  | 0x9a => OP_BOOLAND | 0x9b => OP_BOOLOR | 0x9c => OP_NUMEQUAL
  | 0x9d => OP_NUMEQUALVERIFY | 0x9e => OP_NUMNOTEQUAL | 0x9f => OP_LESSTHAN
  | 0xa0 => OP_GREATERTHAN | 0xa1 => OP_LESSTHANOREQUAL
  | 0xa2 => OP_GREATERTHANOREQUAL | 0xa3 => OP_MIN | 0xa4 => OP_MAX
  | 0xa5 => OP_WITHIN
  | 0xa6 => OP_RIPEMD160 | 0xa7 => OP_SHA1 | 0xa8 => OP_SHA256
  | 0xa9 => OP_HASH160 | 0xaa => OP_HASH256 | 0xab => OP_CODESEPARATOR
  | 0xac => OP_CHECKSIG | 0xad => OP_CHECKSIGVERIFY | 0xae => OP_CHECKMULTISIG
  | 0xaf => OP_CHECKMULTISIGVERIFY
  | 0xb0 => OP_NOP1 | 0xb1 => OP_CHECKLOCKTIMEVERIFY
  | 0xb2 => OP_CHECKSEQUENCEVERIFY | 0xb3 => OP_NOP4 | 0xb4 => OP_NOP5
  | 0xb5 => OP_NOP6 | 0xb6 => OP_NOP7 | 0xb7 => OP_NOP8 | 0xb8 => OP_NOP9
  | 0xb9 => OP_NOP10
  | 0xba => OP_CHECKDATASIG | 0xbb => OP_CHECKDATASIGVERIFY
  | 0xbc => OP_REVERSEBYTES
  | _ => other b

/-- `IsOpcodeDisabled` (interpreter.cpp): the opcodes disabled since
CVE-2010-5137; it reads no flag. -/
def isOpcodeDisabled : Opcode → Bool
  | OP_INVERT | OP_2MUL | OP_2DIV | OP_MUL | OP_LSHIFT | OP_RSHIFT => true
  | _ => false

end Opcode

/-! ## Errors (script_error.h) -/

/-- `ScriptError`: the error codes reported through `serror`. -/
inductive ScriptError where
  | OK | UNKNOWN | EVAL_FALSE | OP_RETURN
  | SCRIPT_SIZE | PUSH_SIZE | OP_COUNT | STACK_SIZE | SIG_COUNT | PUBKEY_COUNT
  | INPUT_SIGCHECKS
  | INVALID_OPERAND_SIZE | INVALID_NUMBER_RANGE | IMPOSSIBLE_ENCODING
  | INVALID_SPLIT_RANGE | INVALID_BIT_COUNT
  | VERIFY | EQUALVERIFY | CHECKMULTISIGVERIFY | CHECKSIGVERIFY
  | CHECKDATASIGVERIFY | NUMEQUALVERIFY
  | BAD_OPCODE | DISABLED_OPCODE | INVALID_STACK_OPERATION
  | INVALID_ALTSTACK_OPERATION | UNBALANCED_CONDITIONAL
  | DIV_BY_ZERO | MOD_BY_ZERO
  | INVALID_BITFIELD_SIZE | INVALID_BIT_RANGE
  | NEGATIVE_LOCKTIME | UNSATISFIED_LOCKTIME
  | SIG_HASHTYPE | SIG_DER | MINIMALDATA | SIG_PUSHONLY | SIG_HIGH_S
  | PUBKEYTYPE | CLEANSTACK | MINIMALIF | SIG_NULLFAIL
  | SIG_BADLENGTH | SIG_NONSCHNORR
  | DISCOURAGE_UPGRADABLE_NOPS
  | ILLEGAL_FORKID | MUST_USE_FORKID
  | SIGCHECKS_LIMIT_EXCEEDED
  deriving DecidableEq, Repr

/-! ## Leaving the normal path -/

/-- The C++ exceptions the interpreter's helpers can throw. -/
inductive Exception where
  /-- Thrown by the `CScriptNum` byte-vector constructor. -/
  | scriptnum_error
  /-- Thrown by `std::vector::at`, which `stacktop`/`altstacktop` use. -/
  | out_of_range
  /-- Thrown by `popstack` on an empty stack. -/
  | runtime_error
  deriving DecidableEq, Repr

/-- How a computation of the interpreter can end other than by returning. -/
inductive Thrown where
  /-- `return set_error(serror, e)`: the script fails with `e`. -/
  | fail (e : ScriptError)
  /-- A C++ exception, caught by `EvalScript`'s `catch (...)`. -/
  | exn (x : Exception)
  /-- A failed `assert` or undefined behaviour (a signed overflow, an iterator
  outside its vector): the process does not go on. -/
  | abort
  deriving DecidableEq, Repr

/-- `return set_error(serror, e)`. -/
def setError {α : Type} (e : ScriptError) : Except Thrown α := .error (.fail e)

/-- `if (cond) { return set_error(serror, e); }`, the guard that opens most
cases of the interpreter. -/
def failIf (cond : Bool) (e : ScriptError) : Except Thrown Unit :=
  if cond then setError e else .ok ()

@[simp] theorem failIf_eq_ok {cond : Bool} {e : ScriptError} {u : Unit} :
    failIf cond e = .ok u ↔ cond = false := by
  cases cond <;> simp [failIf, setError]

/-- A guard that fires less often lets more runs through. -/
@[gcongr] theorem failIf_succLe {c₁ c₂ : Bool} (h : c₁ ≤ c₂) (e : ScriptError) :
    Except.SuccLe (failIf c₁ e) (failIf c₂ e) :=
  Except.SuccLe.guard h (Except.SuccLe.refl _)

/-- `assert(cond)`. -/
def assert (cond : Bool) : Except Thrown Unit :=
  if cond then .ok () else .error .abort

@[simp] theorem assert_eq_ok {cond : Bool} {u : Unit} : assert cond = .ok u ↔ cond = true := by
  cases cond <;> simp [assert]

/-! ## Verification flags (script_flags.h) -/

def SCRIPT_VERIFY_NONE : UInt32 := 0
def SCRIPT_VERIFY_P2SH : UInt32 := (1 : UInt32) <<< 0
def SCRIPT_VERIFY_STRICTENC : UInt32 := (1 : UInt32) <<< 1
def SCRIPT_VERIFY_DERSIG : UInt32 := (1 : UInt32) <<< 2
def SCRIPT_VERIFY_LOW_S : UInt32 := (1 : UInt32) <<< 3
def SCRIPT_VERIFY_SIGPUSHONLY : UInt32 := (1 : UInt32) <<< 5
def SCRIPT_VERIFY_MINIMALDATA : UInt32 := (1 : UInt32) <<< 6
def SCRIPT_VERIFY_DISCOURAGE_UPGRADABLE_NOPS : UInt32 := (1 : UInt32) <<< 7
def SCRIPT_VERIFY_CLEANSTACK : UInt32 := (1 : UInt32) <<< 8
def SCRIPT_VERIFY_CHECKLOCKTIMEVERIFY : UInt32 := (1 : UInt32) <<< 9
def SCRIPT_VERIFY_CHECKSEQUENCEVERIFY : UInt32 := (1 : UInt32) <<< 10
def SCRIPT_VERIFY_MINIMALIF : UInt32 := (1 : UInt32) <<< 13
def SCRIPT_VERIFY_NULLFAIL : UInt32 := (1 : UInt32) <<< 14
def SCRIPT_ENABLE_SIGHASH_FORKID : UInt32 := (1 : UInt32) <<< 16
def SCRIPT_ENABLE_REPLAY_PROTECTION : UInt32 := (1 : UInt32) <<< 17
def SCRIPT_DISALLOW_SEGWIT_RECOVERY : UInt32 := (1 : UInt32) <<< 20
def SCRIPT_ENABLE_SCHNORR_MULTISIG : UInt32 := (1 : UInt32) <<< 21
def SCRIPT_VERIFY_INPUT_SIGCHECKS : UInt32 := (1 : UInt32) <<< 22
def SCRIPT_ENFORCE_SIGCHECKS : UInt32 := (1 : UInt32) <<< 23

/-- The flag test `(flags & f) != 0`. -/
def hasFlag (flags f : UInt32) : Bool := flags &&& f != 0

end Script

end BitcoinAbc
