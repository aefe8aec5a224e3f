import Mathlib
import BitcoinAbc.Script.ScriptNum

/-!
# Reading scripts (script/script.cpp)

`GetScriptOp` decodes one opcode and its push data at `pc`. Everything that
walks a script is built on it:

- `parseScript`: the sequence of instructions `EvalScript`'s loop reads, and
  whether the loop stops at bytes `GetScriptOp` cannot decode. Decoding does
  not depend on the execution state, so `EvalScript` is modelled as decoding
  followed by execution (`Interpreter.lean`); each instruction keeps the bytes
  after it, which is where `pc` points when `OP_CODESEPARATOR` records it.
- `IsPushOnly`, `IsPayToScriptHash`, `IsWitnessProgram`: the shape tests
  `VerifyScript` applies.
- `CheckMinimalPush` and `FindAndDelete`.

`getScriptOp_length_lt` (every successful read consumes bytes) is the
termination argument of all the loops.
-/

namespace BitcoinAbc

namespace Script

/-- The opcode bytes the shape tests compare against. -/
def OP_RETURN_BYTE : UInt8 := 0x6a
def OP_HASH160_BYTE : UInt8 := 0xa9
def OP_EQUAL_BYTE : UInt8 := 0x87
def OP_1_BYTE : UInt8 := 0x51
def OP_1NEGATE_BYTE : UInt8 := 0x4f

/-- `GetScriptOp(pc, end, opcodeRet, pvchRet)` on the bytes from `pc` to the
end: the opcode, its push data and the bytes after it, or `none` where the
C++ returns `false`. -/
def GetScriptOp : List UInt8 → Option (UInt8 × valtype × List UInt8)
  | [] => none
  | opcode :: rest =>
    if opcode ≤ OP_PUSHDATA4 then
      -- the immediate operand's size, and the bytes after the size field
      let sized : Option (Nat × List UInt8) :=
        if opcode < OP_PUSHDATA1 then some (opcode.toNat, rest)
        else if opcode = OP_PUSHDATA1 then
          match rest with
          | b :: r => some (b.toNat, r)
          | [] => none
        else if opcode = OP_PUSHDATA2 then
          if rest.length < 2 then none else some (leValue (rest.take 2), rest.drop 2)
        else
          if rest.length < 4 then none else some (leValue (rest.take 4), rest.drop 4)
      match sized with
      | none => none
      | some (nSize, r) =>
        if r.length < nSize then none else some (opcode, r.take nSize, r.drop nSize)
    else some (opcode, [], rest)

/-- A successful read consumes at least the opcode byte. -/
theorem getScriptOp_length_lt {s rest : List UInt8} {op : UInt8} {data : valtype}
    (h : GetScriptOp s = some (op, data, rest)) : rest.length < s.length := by
  cases s with
  | nil => simp [GetScriptOp] at h
  | cons b bs =>
    simp only [GetScriptOp] at h
    split at h
    · split at h
      · simp at h
      · rename_i nSize r hsized
        split at h
        · simp at h
        · obtain ⟨-, -, rfl⟩ := Option.some.inj h
          -- the size field is a suffix of `bs`, and the data a suffix of it
          have hr : r.length ≤ bs.length := by
            split at hsized
            · obtain ⟨-, rfl⟩ := Option.some.inj hsized
              exact Nat.le_refl _
            · split at hsized
              · split at hsized
                · obtain ⟨-, rfl⟩ := Option.some.inj hsized
                  simp
                · simp at hsized
              · split at hsized
                · split at hsized
                  · simp at hsized
                  · obtain ⟨-, rfl⟩ := Option.some.inj hsized
                    simp
                · split at hsized
                  · simp at hsized
                  · obtain ⟨-, rfl⟩ := Option.some.inj hsized
                    simp
          simp only [List.length_drop, List.length_cons]
          omega
    · obtain ⟨-, -, rfl⟩ := Option.some.inj h
      simp

/-- One instruction as `EvalScript` reads it: the opcode byte, its push data,
and the bytes after it. -/
structure Instr where
  opcode : UInt8
  data : valtype
  next : CScript
  deriving DecidableEq, Repr

/-- The instructions `EvalScript`'s loop reads from `s`, and whether it stops
because `GetScriptOp` fails (`BAD_OPCODE`) rather than at the end. -/
def parseScript (s : CScript) : List Instr × Bool :=
  match _h : GetScriptOp s with
  | none => ([], !s.isEmpty)
  | some (opcode, data, rest) =>
    let tail := parseScript rest
    (⟨opcode, data, rest⟩ :: tail.1, tail.2)
termination_by s.length
decreasing_by exact getScriptOp_length_lt _h

/-- `IsPushOnly(pc)`: every opcode from `pc` on decodes and is at most
`OP_16`. -/
def IsPushOnly (s : CScript) : Bool :=
  -- `GetScriptOp` fails exactly at the end or on bytes it cannot decode
  match _h : GetScriptOp s with
  | none => s.isEmpty
  | some (opcode, _, rest) => if opcode > OP_16_BYTE then false else IsPushOnly rest
termination_by s.length
decreasing_by exact getScriptOp_length_lt _h

/-- `IsPayToScriptHash`: `OP_HASH160 <20 bytes> OP_EQUAL`. -/
def IsPayToScriptHash (s : CScript) : Bool :=
  s.length == 23 && s.getD 0 0 == OP_HASH160_BYTE && s.getD 1 0 == 0x14 &&
    s.getD 22 0 == OP_EQUAL_BYTE

/-- `IsWitnessProgram()`: a version push `OP_0`/`OP_1..OP_16` followed by one
direct push of 2 to 40 bytes filling the script. -/
def IsWitnessProgram (s : CScript) : Bool :=
  if s.length < 4 || s.length > 42 then false
  else if s.getD 0 0 != OP_0 && (s.getD 0 0 < OP_1_BYTE || s.getD 0 0 > OP_16_BYTE) then
    false
  else (s.getD 1 0).toNat + 2 == s.length

/-- `IsUnspendable`: an `OP_RETURN` script, or one over the size limit. -/
def IsUnspendable (s : CScript) : Bool :=
  (s.length > 0 && s.getD 0 0 == OP_RETURN_BYTE) || s.length > MAX_SCRIPT_SIZE

/-! ### Decoding, one instruction at a time -/

theorem GetScriptOp_cons_of_gt {b : UInt8} (r : List UInt8) (hb : OP_PUSHDATA4 < b) :
    GetScriptOp (b :: r) = some (b, [], r) := by
  simp [GetScriptOp, UInt8.not_le.mpr hb]

/-- A direct push: the opcode is the size of the data that follows. -/
theorem GetScriptOp_cons_of_lt {b : UInt8} {r : List UInt8} (hb : b < OP_PUSHDATA1)
    (hr : b.toNat ≤ r.length) :
    GetScriptOp (b :: r) = some (b, r.take b.toNat, r.drop b.toNat) := by
  have hle : b ≤ OP_PUSHDATA4 := UInt8.le_of_lt (UInt8.lt_trans hb (by decide))
  simp [GetScriptOp, hle, hb, Nat.not_lt.mpr hr]

theorem parseScript_of_some {s rest : CScript} {opcode : UInt8} {data : valtype}
    (h : GetScriptOp s = some (opcode, data, rest)) :
    parseScript s = (⟨opcode, data, rest⟩ :: (parseScript rest).1, (parseScript rest).2) := by
  rw [parseScript]
  split
  · rename_i h'
    rw [h] at h'
    cases h'
  · rename_i h'
    rw [h] at h'
    cases h'
    rfl

theorem parseScript_of_none {s : CScript} (h : GetScriptOp s = none) :
    parseScript s = ([], !s.isEmpty) := by
  rw [parseScript]
  split
  · rfl
  · rename_i h'
    rw [h] at h'
    cases h'

theorem parseScript_nil : parseScript [] = ([], false) := by
  rw [parseScript]
  rfl

/-- The instructions of a push-only script are pushes and `OP_1NEGATE`,
`OP_RESERVED`, `OP_1` … `OP_16`. -/
theorem IsPushOnly_opcodes (s : CScript) (h : IsPushOnly s = true) :
    ∀ ins ∈ (parseScript s).1, ins.opcode ≤ OP_16_BYTE := by
  induction s using parseScript.induct with
  | case1 s hnone =>
    rw [parseScript_of_none hnone]
    intro ins hins
    cases hins
  | case2 s opcode data rest hsome ih =>
    rw [parseScript_of_some hsome]
    rw [IsPushOnly] at h
    -- `IsPushOnly` reads the same first instruction
    split at h
    · rename_i h'
      rw [hsome] at h'
      cases h'
    · rename_i h'
      rw [hsome] at h'
      cases h'
      split at h
      · cases h
      · rename_i hle
        intro ins hins
        rcases List.mem_cons.mp hins with rfl | hins
        · exact UInt8.not_lt.mp hle
        · exact ih h ins hins

/-- A P2SH script decodes to `OP_HASH160`, a 20-byte push and `OP_EQUAL`. -/
theorem parseScript_of_isPayToScriptHash {s : CScript} (h : IsPayToScriptHash s = true) :
    (parseScript s).1.map Instr.opcode = [OP_HASH160_BYTE, 0x14, OP_EQUAL_BYTE] := by
  match s, h with
  | x :: y :: t, h =>
    simp only [IsPayToScriptHash, List.length_cons, List.getD_cons_zero, List.getD_cons_succ,
      Bool.and_eq_true, beq_iff_eq] at h
    obtain ⟨⟨⟨hlen, rfl⟩, rfl⟩, hlast⟩ := h
    have hlen : t.length = 21 := by omega
    -- the 20 pushed bytes, then `OP_EQUAL` alone
    have hdrop : t.drop 20 = [OP_EQUAL_BYTE] := by
      rw [List.drop_eq_getElem_cons (by omega), List.drop_eq_nil_of_le (by omega)]
      rw [List.getD_eq_getElem?_getD, List.getElem?_eq_getElem (by omega),
        Option.getD_some] at hlast
      rw [hlast]
    rw [parseScript_of_some (GetScriptOp_cons_of_gt _ (by decide)),
      parseScript_of_some (GetScriptOp_cons_of_lt (by decide) (by simp; omega)),
      show (0x14 : UInt8).toNat = 20 from rfl, hdrop,
      parseScript_of_some (GetScriptOp_cons_of_gt _ (by decide)), parseScript_nil]
    rfl

/-- `CheckMinimalPush(data, opcode)`, with its assert that `opcode` is a push
opcode. -/
def CheckMinimalPush (data : valtype) (opcode : UInt8) : Except Thrown Bool := do
  assert (opcode ≤ OP_PUSHDATA4)
  if data.length = 0 then return opcode == OP_0
  if data.length = 1 && 1 ≤ data.getD 0 0 && data.getD 0 0 ≤ 16 then return false
  if data.length = 1 && data.getD 0 0 == 0x81 then return false
  if data.length ≤ 75 then return opcode.toNat == data.length
  if data.length ≤ 255 then return opcode == OP_PUSHDATA1
  if data.length ≤ 65535 then return opcode == OP_PUSHDATA2
  return true

/-- `CScript() << b` (`CScript::operator<<(const std::vector<uint8_t> &)`): the
push of `b` with the shortest size field of its length class. -/
def pushBytes (b : valtype) : CScript :=
  if b.length < OP_PUSHDATA1.toNat then [b.length.toUInt8] ++ b
  else if b.length ≤ 0xff then [OP_PUSHDATA1, b.length.toUInt8] ++ b
  else if b.length ≤ 0xffff then
    [OP_PUSHDATA2, (b.length % 256).toUInt8, (b.length / 256 % 256).toUInt8] ++ b
  else
    [OP_PUSHDATA4, (b.length % 256).toUInt8, (b.length / 256 % 256).toUInt8,
      (b.length / 65536 % 256).toUInt8, (b.length / 16777216 % 256).toUInt8] ++ b

/-- `CScript::push_int64(n)` (`script << n` for an `int64_t`): `OP_1NEGATE`,
`OP_1` … `OP_16` or `OP_0` for their values, a push of
`CScriptNum::serialize(n)` otherwise. -/
def push_int64 (script : CScript) (n : Int) : CScript :=
  if n = -1 ∨ (1 ≤ n ∧ n ≤ 16) then script ++ [(n + (OP_1_BYTE.toNat - 1 : Nat)).toNat.toUInt8]
  else if n = 0 then script ++ [OP_0]
  else script ++ pushBytes (CScriptNum.serialize n)

/-! ## `FindAndDelete` -/

/-- The inner `while` of `FindAndDelete`: drop the copies of `b` that start at
`pc`, counting them. -/
def stripCopies (b : CScript) (hb : b ≠ []) (s : CScript) : CScript × Nat :=
  if s.length ≥ b.length ∧ s.take b.length = b then
    ((stripCopies b hb (s.drop b.length)).1, (stripCopies b hb (s.drop b.length)).2 + 1)
  else (s, 0)
termination_by s.length
decreasing_by
  have : 0 < b.length := List.length_pos_iff.mpr hb
  simp only [List.length_drop]
  omega

theorem stripCopies_length_le (b : CScript) (hb : b ≠ []) (s : CScript) :
    (stripCopies b hb s).1.length ≤ s.length := by
  fun_induction stripCopies b hb s with
  | case1 s hcopy ih =>
    simp only [List.length_drop] at ih ⊢
    omega
  | case2 s hcopy => exact Nat.le_refl _

/-- The `do … while (script.GetOp(pc, opcode))` loop of `FindAndDelete`: the
kept bytes and the number of copies removed, from `pc` to the end. Between two
opcodes the copies of `b` are dropped; each opcode is kept; where `GetOp`
stops, the bytes left are kept. -/
def findAndDeleteLoop (b : CScript) (hb : b ≠ []) (s : CScript) : CScript × Nat :=
  match _h : GetScriptOp (stripCopies b hb s).1 with
  | none => stripCopies b hb s
  | some (_, _, rest) =>
    -- the opcode's bytes are kept, then the loop goes on after them
    ((stripCopies b hb s).1.take ((stripCopies b hb s).1.length - rest.length) ++
        (findAndDeleteLoop b hb rest).1,
      (stripCopies b hb s).2 + (findAndDeleteLoop b hb rest).2)
termination_by s.length
decreasing_by
  have h1 := getScriptOp_length_lt _h
  have h2 := stripCopies_length_le b hb s
  omega

/-- `FindAndDelete(script, b)`: the script with the copies of `b` that start at
opcode boundaries removed (unchanged when none is found), and their number. -/
def FindAndDelete (script b : CScript) : CScript × Nat :=
  if hb : b = [] then (script, 0)
  else
    let r := findAndDeleteLoop b hb script
    if r.2 > 0 then r else (script, 0)

end Script

end BitcoinAbc
