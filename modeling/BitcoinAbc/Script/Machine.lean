import Mathlib
import BitcoinAbc.Script.SigEncoding

/-!
# The interpreter's machine state (script/interpreter.cpp)

What `EvalScript` keeps between two instructions, and the primitive accesses
it makes to it:

- the main stack and the alt stack, as `std::vector`s: bottom first, top last;
- `stacktop(i)`, `altstacktop(i)`: `stack.at(stack.size() + i)` with `i < 0`.
  The offset arithmetic is done on `Int` exactly as written in the source
  (`-idxTopSig - k`, `-idxBottomKey + iKey`, ...), and an index outside the
  vector throws `std::out_of_range`, as `at()` does;
- `popstack`, which throws `std::runtime_error` on an empty stack;
- `erase` and `insert` at iterators `stack.end() - k`: an iterator outside the
  vector is undefined behaviour, so `Thrown.abort`;
- `ConditionStack`, the optimised `vector<bool>` of `IF` branches (a size and
  the position of the first false value), with the asserts of `pop_back` and
  `toggle_top`.

The signature checker is the `BaseSignatureChecker` interface; its methods
read the spending transaction, which the model does not contain, so a checker
is any four functions.
-/

namespace BitcoinAbc

namespace Script

open CScriptNum

/-- The virtual interface of `BaseSignatureChecker`. -/
structure BaseSignatureChecker where
  /-- `VerifySignature(vchSig, pubkey, sighash)`. -/
  VerifySignature : valtype → valtype → valtype → Bool
  /-- `CheckSig(vchSig, vchPubKey, scriptCode, flags)`. -/
  CheckSig : valtype → valtype → CScript → UInt32 → Bool
  /-- `CheckLockTime(nLockTime)`. -/
  CheckLockTime : CScriptNum → Bool
  /-- `CheckSequence(nSequence)`. -/
  CheckSequence : CScriptNum → Bool

/-- `ScriptExecutionMetrics`. -/
structure ScriptExecutionMetrics where
  nSigChecks : Int := 0
  deriving DecidableEq, Repr

/-! ## `ConditionStack` -/

/-- `NO_FALSE`: no false value on the implied stack. -/
def NO_FALSE : UInt32 := 0xffffffff

/-- `ConditionStack`: the size of the implied stack of booleans and the
position of its first false value. -/
structure ConditionStack where
  m_stack_size : UInt32 := 0
  m_first_false_pos : UInt32 := NO_FALSE
  deriving DecidableEq, Repr

namespace ConditionStack

def empty (c : ConditionStack) : Bool := c.m_stack_size == 0

def all_true (c : ConditionStack) : Bool := c.m_first_false_pos == NO_FALSE

def push_back (c : ConditionStack) (f : Bool) : ConditionStack :=
  { m_stack_size := c.m_stack_size + 1
    m_first_false_pos :=
      -- the first false value appears at the current size
      if c.m_first_false_pos == NO_FALSE && !f then c.m_stack_size
      else c.m_first_false_pos }

def pop_back (c : ConditionStack) : Except Thrown ConditionStack := do
  assert (c.m_stack_size > 0)
  let size := c.m_stack_size - 1
  return { m_stack_size := size
           m_first_false_pos :=
             -- popping the first false value makes everything true
             if c.m_first_false_pos == size then NO_FALSE else c.m_first_false_pos }

def toggle_top (c : ConditionStack) : Except Thrown ConditionStack := do
  assert (c.m_stack_size > 0)
  if c.m_first_false_pos == NO_FALSE then
    return { c with m_first_false_pos := c.m_stack_size - 1 }
  else if c.m_first_false_pos == c.m_stack_size - 1 then
    return { c with m_first_false_pos := NO_FALSE }
  else
    -- toggling anything but the first false value is unobservable
    return c

end ConditionStack

/-! ## Stack accesses -/

/-- `stacktop(i)` = `stack.at(stack.size() + i)`. -/
def stacktop (stack : List valtype) (i : Int) : Except Thrown valtype :=
  -- `size_t` arithmetic: a negative index wraps to a huge one
  if 0 ≤ (stack.length : Int) + i then
    match stack[((stack.length : Int) + i).toNat]? with
    | some v => .ok v
    | none => .error (.exn .out_of_range)
  else .error (.exn .out_of_range)

/-- `stacktop(i) = v`: an assignment through `at()`. -/
def setStacktop (stack : List valtype) (i : Int) (v : valtype) :
    Except Thrown (List valtype) := do
  let _ ← stacktop stack i
  return stack.set (stack.length + i).toNat v

/-- `swap(stacktop(i), stacktop(j))`. -/
def swapStacktop (stack : List valtype) (i j : Int) : Except Thrown (List valtype) := do
  let vi ← stacktop stack i
  let vj ← stacktop stack j
  return (stack.set (stack.length + i).toNat vj).set (stack.length + j).toNat vi

/-- `popstack(stack)`. -/
def popstack (stack : List valtype) : Except Thrown (List valtype) :=
  if stack.isEmpty then .error (.exn .runtime_error) else .ok stack.dropLast

/-- `stack.erase(stack.end() - k)`: the iterator must point into the vector. -/
def eraseFromEnd (stack : List valtype) (k : Int) : Except Thrown (List valtype) :=
  if 1 ≤ k ∧ k ≤ stack.length then .ok (stack.eraseIdx (stack.length - k).toNat)
  else .error .abort

/-- `stack.erase(stack.end() - k, stack.end() - l)`, `k ≥ l`. -/
def eraseRangeFromEnd (stack : List valtype) (k l : Nat) : Except Thrown (List valtype) :=
  if l ≤ k ∧ k ≤ stack.length then
    .ok (stack.take (stack.length - k) ++ stack.drop (stack.length - l))
  else .error .abort

/-- `stack.insert(stack.end() - k, v)`. -/
def insertFromEnd (stack : List valtype) (k : Nat) (v : valtype) :
    Except Thrown (List valtype) :=
  if k ≤ stack.length then .ok (stack.insertIdx (stack.length - k) v) else .error .abort

/-! ### Accesses within the bounds

Every access of the interpreter is guarded by a check on the stack size; under
it, the accesses return. These are the lemmas the safety and the functional
proofs rewrite with, so that neither unfolds an access. -/

section Bounds

variable {stack : List valtype}

/-- `stacktop(i)` with `-size ≤ i < 0` reads the element `-i` from the top. -/
theorem stacktop_eq_ok {i : Int} (hi : i < 0) (h : -(stack.length : Int) ≤ i) :
    stacktop stack i = .ok (stack.get ⟨((stack.length : Int) + i).toNat, by omega⟩) := by
  unfold stacktop
  rw [if_pos (by omega), List.getElem?_eq_getElem (by omega)]
  rfl

theorem setStacktop_eq_ok {i : Int} (hi : i < 0) (h : -(stack.length : Int) ≤ i)
    (v : valtype) :
    setStacktop stack i v = .ok (stack.set ((stack.length : Int) + i).toNat v) := by
  unfold setStacktop
  rw [stacktop_eq_ok hi h]
  rfl

theorem swapStacktop_eq_ok (stack : List valtype) {i j : Int} (hi : i < 0) (hi' : -(stack.length : Int) ≤ i)
    (hj : j < 0) (hj' : -(stack.length : Int) ≤ j) :
    ∃ stack', swapStacktop stack i j = .ok stack' ∧ stack'.length = stack.length := by
  unfold swapStacktop
  rw [stacktop_eq_ok hi hi', stacktop_eq_ok hj hj']
  exact ⟨_, rfl, by simp⟩

theorem popstack_eq_ok (h : 0 < stack.length) : popstack stack = .ok stack.dropLast := by
  unfold popstack
  rw [if_neg (by simpa [List.isEmpty_iff, ← List.length_pos_iff] using h)]

theorem eraseFromEnd_eq_ok {k : Int} (hk : 1 ≤ k) (h : k ≤ stack.length) :
    eraseFromEnd stack k = .ok (stack.eraseIdx (stack.length - k).toNat) := by
  unfold eraseFromEnd
  rw [if_pos ⟨hk, h⟩]

theorem eraseRangeFromEnd_eq_ok {k l : Nat} (hlk : l ≤ k) (h : k ≤ stack.length) :
    eraseRangeFromEnd stack k l =
      .ok (stack.take (stack.length - k) ++ stack.drop (stack.length - l)) := by
  unfold eraseRangeFromEnd
  rw [if_pos ⟨hlk, h⟩]

theorem insertFromEnd_eq_ok {k : Nat} (h : k ≤ stack.length) (v : valtype) :
    insertFromEnd stack k v = .ok (stack.insertIdx (stack.length - k) v) := by
  unfold insertFromEnd
  rw [if_pos h]

/-! The top of the stack, where most operations read and write. -/

/-- The offset `-1` from a size of `stack.length + 1` is `stack.length`. -/
theorem toNat_length_succ_sub_one (stack : List valtype) :
    (((stack.length + 1 : Nat) : Int) + -1).toNat = stack.length := by
  omega

theorem stacktop_concat (v : valtype) : stacktop (stack ++ [v]) (-1) = .ok v := by
  rw [stacktop_eq_ok (by decide) (by simp)]
  simp only [List.length_append, List.length_singleton, toNat_length_succ_sub_one]
  simp

theorem setStacktop_concat (v w : valtype) :
    setStacktop (stack ++ [v]) (-1) w = .ok (stack ++ [w]) := by
  rw [setStacktop_eq_ok (by decide) (by simp)]
  simp only [List.length_append, List.length_singleton, toNat_length_succ_sub_one]
  simp

theorem popstack_concat (v : valtype) : popstack (stack ++ [v]) = .ok stack := by
  rw [popstack_eq_ok (by simp), List.dropLast_concat]

end Bounds

namespace ConditionStack

/-- `pop_back` and `toggle_top` return on a non-empty stack: their asserts
are the `empty()` checks the interpreter makes before calling them. -/
theorem pop_back_ok {c : ConditionStack} (h : c.empty = false) :
    ∃ c', c.pop_back = .ok c' := by
  have ha : assert (decide (c.m_stack_size > 0)) = .ok () := by
    simp only [empty, beq_eq_false_iff_ne] at h
    simpa [assert] using h
  unfold pop_back
  rw [ha]
  exact ⟨_, rfl⟩

theorem toggle_top_ok {c : ConditionStack} (h : c.empty = false) :
    ∃ c', c.toggle_top = .ok c' := by
  have ha : assert (decide (c.m_stack_size > 0)) = .ok () := by
    simp only [empty, beq_eq_false_iff_ne] at h
    simpa [assert] using h
  unfold toggle_top
  rw [ha, Except.ok_bind]
  split
  · exact ⟨_, rfl⟩
  · split <;> exact ⟨_, rfl⟩

end ConditionStack

/-! ## State -/

/-- The local state of `EvalScript` between two instructions. -/
structure EvalState where
  stack : List valtype
  altstack : List valtype := []
  vfExec : ConditionStack := {}
  nOpCount : Int := 0
  /-- `pbegincodehash`: the script from the last `OP_CODESEPARATOR` on. -/
  pbegincodehash : CScript
  metrics : ScriptExecutionMetrics

/-- `CastToBool`: any non-zero byte except a sign bit alone in the last byte. -/
def CastToBool (vch : valtype) : Bool :=
  match vch with
  | [] => false
  | b :: rest =>
    if b != 0 then !(rest.isEmpty && b == 0x80) else CastToBool rest

/-- `vchFalse` and `vchTrue`. -/
def vchFalse : valtype := []
def vchTrue : valtype := [1]

end Script

end BitcoinAbc
