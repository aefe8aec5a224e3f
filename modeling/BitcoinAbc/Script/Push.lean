import Mathlib
import BitcoinAbc.Script.Parse
import BitcoinAbc.Script.NumEncoding

/-!
# Pushes: encoding and decoding agree (script/script.h, script.cpp)

`CScript::operator<<` writes a push with the shortest size field of its
length class (`pushBytes`), and `push_int64` writes a number as `OP_0`,
`OP_1NEGATE`, `OP_1` … `OP_16` or a push of its serialization. `GetScriptOp`
reads them back:

- a decoded instruction does not depend on the bytes after it
  (`GetScriptOp_append`), so a script that decodes to its end can be extended
  without changing its instructions (`parseScript_append`);
- a push written by `pushBytes` decodes to exactly its data
  (`GetScriptOp_pushBytes`);
- a number written by `push_int64` decodes to one instruction that pushes it,
  minimally (`parseScript_push_int64`).
-/

namespace BitcoinAbc

namespace Script

open CScriptNum

/-! ## Decoding does not look past an instruction -/

/-- The size field `GetScriptOp` reads after the push opcode `b`: the size, and
the bytes after the field. -/
def sizeField (b : UInt8) (r : List UInt8) : Option (Nat × List UInt8) :=
  if b < OP_PUSHDATA1 then some (b.toNat, r)
  else if b = OP_PUSHDATA1 then
    match r with
    | c :: r => some (c.toNat, r)
    | [] => none
  else if b = OP_PUSHDATA2 then
    if r.length < 2 then none else some (leValue (r.take 2), r.drop 2)
  else if r.length < 4 then none else some (leValue (r.take 4), r.drop 4)

/-- `GetScriptOp` on one opcode, with its size field named. -/
theorem GetScriptOp_cons (b : UInt8) (r : List UInt8) :
    GetScriptOp (b :: r) =
      if b ≤ OP_PUSHDATA4 then
        match sizeField b r with
        | none => none
        | some (nSize, r) => if r.length < nSize then none else some (b, r.take nSize, r.drop nSize)
      else some (b, [], r) := rfl

/-- Bytes after the script do not change the size field. -/
theorem sizeField_append {b : UInt8} {r r' : List UInt8} {n : Nat}
    (h : sizeField b r = some (n, r')) (t : List UInt8) :
    sizeField b (r ++ t) = some (n, r' ++ t) := by
  unfold sizeField at h ⊢
  by_cases h1 : b < OP_PUSHDATA1
  · simp only [h1, if_true, Option.some.injEq, Prod.mk.injEq] at h ⊢
    obtain ⟨rfl, rfl⟩ := h
    exact ⟨rfl, rfl⟩
  rw [if_neg h1] at h ⊢
  by_cases h2 : b = OP_PUSHDATA1
  · rw [if_pos h2] at h ⊢
    cases r with
    | nil => cases h
    | cons c r =>
      simp only [List.cons_append, Option.some.injEq, Prod.mk.injEq] at h ⊢
      obtain ⟨rfl, rfl⟩ := h
      exact ⟨rfl, rfl⟩
  rw [if_neg h2] at h ⊢
  by_cases h3 : b = OP_PUSHDATA2
  · rw [if_pos h3] at h ⊢
    split at h
    · cases h
    · rename_i hlen
      simp only [Option.some.injEq, Prod.mk.injEq] at h
      obtain ⟨rfl, rfl⟩ := h
      have hlen' : ¬(r ++ t).length < 2 := by simp; omega
      rw [if_neg hlen', List.take_append_of_le_length (by omega),
        List.drop_append_of_le_length (by omega)]
  · rw [if_neg h3] at h ⊢
    split at h
    · cases h
    · rename_i hlen
      simp only [Option.some.injEq, Prod.mk.injEq] at h
      obtain ⟨rfl, rfl⟩ := h
      have hlen' : ¬(r ++ t).length < 4 := by simp; omega
      rw [if_neg hlen', List.take_append_of_le_length (by omega),
        List.drop_append_of_le_length (by omega)]

/-- Bytes after the script do not change how its first instruction decodes;
they stay after it. -/
theorem GetScriptOp_append {s rest : List UInt8} {op : UInt8} {data : valtype} (t : List UInt8)
    (h : GetScriptOp s = some (op, data, rest)) :
    GetScriptOp (s ++ t) = some (op, data, rest ++ t) := by
  cases s with
  | nil => simp [GetScriptOp] at h
  | cons b r =>
    rw [List.cons_append, GetScriptOp_cons]
    rw [GetScriptOp_cons] at h
    by_cases hb : b ≤ OP_PUSHDATA4
    · rw [if_pos hb] at h ⊢
      split at h
      · cases h
      · rename_i nSize r' hsized
        rw [sizeField_append hsized]
        split at h
        · cases h
        · rename_i hlen
          simp only [Option.some.injEq, Prod.mk.injEq] at h
          obtain ⟨rfl, rfl, rfl⟩ := h
          have hlen' : ¬(r' ++ t).length < nSize := by simp; omega
          simp only [hlen', if_false, List.take_append_of_le_length (by omega : nSize ≤ r'.length),
            List.drop_append_of_le_length (by omega : nSize ≤ r'.length)]
    · rw [if_neg hb] at h ⊢
      simp only [Option.some.injEq, Prod.mk.injEq] at h ⊢
      obtain ⟨rfl, rfl, rfl⟩ := h
      exact ⟨rfl, rfl, rfl⟩

/-- A script that decodes to its end, extended by `t`: its instructions, now
followed by `t`, then the instructions of `t`. -/
theorem parseScript_append (t : CScript) (s : CScript) (h : (parseScript s).2 = false) :
    parseScript (s ++ t) =
      ((parseScript s).1.map (fun i => { i with next := i.next ++ t }) ++ (parseScript t).1,
        (parseScript t).2) := by
  induction s using parseScript.induct with
  | case1 s hnone =>
    -- `GetScriptOp` stops only at the end of a script that decodes to its end
    rw [parseScript_of_none hnone] at h
    have hs : s = [] := List.isEmpty_iff.mp (by simpa using h)
    subst hs
    rw [List.nil_append, parseScript_nil, List.map_nil, List.nil_append]
  | case2 s opcode data rest hsome ih =>
    rw [parseScript_of_some hsome] at h ⊢
    rw [parseScript_of_some (GetScriptOp_append t hsome), ih h]
    rfl

/-! ## Pushes written by `pushBytes` -/

section PushBytes

variable {b : valtype}

/-- A push opcode whose size field reads the length of `b`, with `b` after it,
decodes to `b`. -/
theorem GetScriptOp_of_sizeField {op : UInt8} {r rest : List UInt8} (hop : op ≤ OP_PUSHDATA4)
    (h : sizeField op r = some (b.length, b ++ rest)) :
    GetScriptOp (op :: r) = some (op, b, rest) := by
  rw [GetScriptOp_cons, if_pos hop, h]
  simp

theorem toNat_toUInt8_of_lt {n : Nat} (h : n < 256) : n.toUInt8.toNat = n := by
  simp [Nat.mod_eq_of_lt h]

/-- A short push: its opcode is its length. -/
theorem GetScriptOp_pushBytes_of_lt (h : b.length < OP_PUSHDATA1.toNat) (rest : List UInt8) :
    GetScriptOp (pushBytes b ++ rest) = some (b.length.toUInt8, b, rest) := by
  have hlen : b.length < 0x4c := h
  have hop : b.length.toUInt8 < OP_PUSHDATA1 := by
    rw [UInt8.lt_iff_toNat_lt, toNat_toUInt8_of_lt (by omega)]
    exact h
  rw [pushBytes, if_pos h, List.singleton_append, List.cons_append]
  refine GetScriptOp_of_sizeField (UInt8.le_of_lt (UInt8.lt_trans hop (by decide))) ?_
  unfold sizeField
  rw [if_pos hop, toNat_toUInt8_of_lt (by omega)]

/-- Every push `pushBytes` writes, of fewer than `2^32` bytes, decodes to its
data and stops where the push ends. -/
theorem GetScriptOp_pushBytes (hb : b.length < 2 ^ 32) (rest : List UInt8) :
    ∃ op, GetScriptOp (pushBytes b ++ rest) = some (op, b, rest) := by
  by_cases h1 : b.length < OP_PUSHDATA1.toNat
  · exact ⟨_, GetScriptOp_pushBytes_of_lt h1 rest⟩
  have h1' : ¬b.length < 0x4c := h1
  rw [pushBytes, if_neg h1]
  split
  · -- `OP_PUSHDATA1` and one size byte
    rename_i h2
    refine ⟨OP_PUSHDATA1, ?_⟩
    simp only [List.cons_append, List.nil_append]
    refine GetScriptOp_of_sizeField (by decide) ?_
    unfold sizeField
    rw [if_neg (by decide), if_pos rfl]
    simp only [toNat_toUInt8_of_lt (show b.length < 256 by omega)]
  split
  · -- `OP_PUSHDATA2` and two size bytes, little-endian
    rename_i h2 h3
    refine ⟨OP_PUSHDATA2, ?_⟩
    simp only [List.cons_append, List.nil_append]
    refine GetScriptOp_of_sizeField (by decide) ?_
    unfold sizeField
    rw [if_neg (by decide), if_neg (by decide), if_pos rfl]
    simp [leValue]
    omega
  · -- `OP_PUSHDATA4` and four size bytes, little-endian
    rename_i h2 h3
    refine ⟨OP_PUSHDATA4, ?_⟩
    simp only [List.cons_append, List.nil_append]
    refine GetScriptOp_of_sizeField (by decide) ?_
    unfold sizeField
    rw [if_neg (by decide), if_neg (by decide), if_neg (by decide)]
    simp [leValue]
    omega

/-- A push written by `pushBytes`, on its own, decodes to one instruction that
pushes its data and ends the script. -/
theorem parseScript_pushBytes (hb : b.length < 2 ^ 32) :
    ∃ op, parseScript (pushBytes b) = ([⟨op, b, []⟩], false) := by
  obtain ⟨op, h⟩ := GetScriptOp_pushBytes hb []
  rw [List.append_nil] at h
  exact ⟨op, by rw [parseScript_of_some h, parseScript_nil]⟩

end PushBytes

/-! ## Numbers written by `push_int64` -/

section PushInt64

set_option maxRecDepth 4000 in
/-- A byte from 1 to 16 on its own reads as itself. -/
theorem set_vch_singleton_of_le_16 {c : UInt8} (h1 : 1 ≤ c) (h16 : c ≤ 16) :
    set_vch [c] = c.toNat :=
  forall_byte (P := fun c => 1 ≤ c → c ≤ 16 → set_vch [c] = c.toNat) (by decide) c h1 h16

/-- The serialization of a number other than `0`, `-1` and `1` … `16` is not
one that `CheckMinimalPush` sends to `OP_0`, `OP_1NEGATE` or `OP_N`: a direct
push of it is minimal. -/
theorem CheckMinimalPush_serialize {n : Int} (hn : n ≠ 0) (hsmall : ¬(n = -1 ∨ (1 ≤ n ∧ n ≤ 16)))
    (hlen : (serialize n).length < OP_PUSHDATA1.toNat) :
    CheckMinimalPush (serialize n) (serialize n).length.toUInt8 = .ok true := by
  have hval := set_vch_serialize n
  have hlen' : (serialize n).length < 0x4c := hlen
  have hop : (serialize n).length.toUInt8 ≤ OP_PUSHDATA4 := by
    rw [UInt8.le_iff_toNat_le, toNat_toUInt8_of_lt (by omega)]
    exact Nat.le_trans (Nat.le_of_lt hlen) (by decide)
  have hne : (serialize n).length ≠ 0 := by
    intro h0
    rw [List.length_eq_zero_iff.mp h0] at hval
    exact hn hval.symm
  -- a one-byte serialization is neither `1` … `16` nor `0x81`
  have hone : (serialize n).length = 1 →
      ¬(1 ≤ (serialize n).getD 0 0 ∧ (serialize n).getD 0 0 ≤ 16) ∧
        (serialize n).getD 0 0 ≠ 0x81 := by
    intro h1
    obtain ⟨c, hc⟩ := List.length_eq_one_iff.mp h1
    rw [hc] at hval ⊢
    refine ⟨fun ⟨hlo, hhi⟩ => ?_, fun h81 => ?_⟩
    · have hc16 : c.toNat ≤ 16 := UInt8.le_iff_toNat_le.mp hhi
      have hc1 : 1 ≤ c.toNat := UInt8.le_iff_toNat_le.mp hlo
      rw [List.getD_cons_zero] at hlo hhi
      rw [set_vch_singleton_of_le_16 hlo hhi] at hval
      omega
    · rw [List.getD_cons_zero] at h81
      rw [h81] at hval
      exact hsmall (.inl (hval.symm.trans rfl))
  have hsmall' : (decide ((serialize n).length = 1) && decide (1 ≤ (serialize n).getD 0 0) &&
      decide ((serialize n).getD 0 0 ≤ 16)) = false := by
    by_cases h1 : (serialize n).length = 1
    · obtain ⟨hlow, -⟩ := hone h1
      simpa [h1] using hlow
    · simp [h1]
  have h81 : (decide ((serialize n).length = 1) && (serialize n).getD 0 0 == 0x81) = false := by
    by_cases h1 : (serialize n).length = 1
    · obtain ⟨-, h81⟩ := hone h1
      simpa [h1] using h81
    · simp [h1]
  have h75 : (serialize n).length ≤ 75 := by omega
  unfold CheckMinimalPush
  simp only [assert, hop, decide_true, if_true, Except.ok_bind, hne, if_false]
  rw [hsmall', h81, if_neg Bool.false_ne_true, if_neg Bool.false_ne_true, if_pos h75,
    toNat_toUInt8_of_lt (by omega), beq_self_eq_true]
  rfl

/-- `CScript() << n` for an `int64_t` other than `INT64_MIN` decodes to one
instruction: `OP_0` for zero, `OP_1NEGATE` or `OP_1` … `OP_16` whose value is
`n`, or a direct push of `serialize n` that `CheckMinimalPush` accepts. -/
theorem parseScript_push_int64 {n : Int} (hn : inInt64 n = true) (hmin : n ≠ INT64_MIN) :
    ∃ op data, parseScript (push_int64 [] n) = ([⟨op, data, []⟩], false) ∧
      ((op = OP_0 ∧ data = [] ∧ n = 0) ∨
        ((op = OP_1NEGATE_BYTE ∨ (OP_1_BYTE ≤ op ∧ op ≤ OP_16_BYTE)) ∧ data = [] ∧
          (op.toNat : Int) - (OP_1_BYTE.toNat - 1 : Nat) = n) ∨
        (data = serialize n ∧ CheckMinimalPush data op = .ok true)) := by
  unfold push_int64
  split
  · -- `OP_1NEGATE`, `OP_1` … `OP_16`: one opcode byte
    rename_i hsmall
    have hop : ((n + (OP_1_BYTE.toNat - 1 : Nat)).toNat.toUInt8).toNat =
        (n + (OP_1_BYTE.toNat - 1 : Nat)).toNat := by
      rw [toNat_toUInt8_of_lt (by unfold OP_1_BYTE at *; simp; omega)]
    have hgt : OP_PUSHDATA4 < (n + (OP_1_BYTE.toNat - 1 : Nat)).toNat.toUInt8 := by
      rw [UInt8.lt_iff_toNat_lt, hop]
      unfold OP_1_BYTE OP_PUSHDATA4
      simp
      omega
    refine ⟨(n + (OP_1_BYTE.toNat - 1 : Nat)).toNat.toUInt8, [], ?_, .inr (.inl ⟨?_, rfl, ?_⟩)⟩
    · rw [List.nil_append, parseScript_of_some (GetScriptOp_cons_of_gt [] hgt), parseScript_nil]
    · rw [UInt8.le_iff_toNat_le, UInt8.le_iff_toNat_le, hop]
      unfold OP_1NEGATE_BYTE OP_1_BYTE OP_16_BYTE
      rcases hsmall with rfl | ⟨h1, h16⟩
      · left
        rfl
      · right
        simp
        omega
    · rw [hop]
      unfold OP_1_BYTE
      simp
      omega
  split
  · -- `OP_0`
    rename_i hsmall hzero
    refine ⟨OP_0, [], ?_, .inl ⟨rfl, rfl, hzero⟩⟩
    rw [List.nil_append, parseScript_of_some (GetScriptOp_cons_of_lt (r := []) (by decide)
      (by decide))]
    simp only [List.take_nil, List.drop_nil, parseScript_nil]
  · -- a direct push of the serialization, at most 8 bytes
    rename_i hsmall hzero
    have hlen : (serialize n).length < OP_PUSHDATA1.toNat :=
      Nat.lt_of_le_of_lt (length_serialize_le (natAbs_lt_of_inInt64 hn hmin)) (by decide)
    have hget := GetScriptOp_pushBytes_of_lt hlen []
    rw [List.append_nil] at hget
    refine ⟨_, _, ?_, .inr (.inr ⟨rfl, CheckMinimalPush_serialize hzero hsmall hlen⟩)⟩
    rw [List.nil_append, parseScript_of_some hget, parseScript_nil]

end PushInt64

/-- Push encoding and decoding agree: appending a push of `b` to a script that
decodes to its end gives its instructions, then one instruction that pushes
exactly `b` and ends the script; and `CScript() << n` decodes to one
instruction pushing `n`, minimally. -/
theorem push_parse_roundTrip :
    (∀ s b : CScript, (parseScript s).2 = false → b.length < 2 ^ 32 →
      ∃ op, parseScript (s ++ pushBytes b) =
        ((parseScript s).1.map (fun i => { i with next := i.next ++ pushBytes b }) ++
          [⟨op, b, []⟩], false)) ∧
    (∀ n : Int, inInt64 n = true → n ≠ INT64_MIN →
      ∃ op data, parseScript (push_int64 [] n) = ([⟨op, data, []⟩], false) ∧
        ((op = OP_0 ∧ data = [] ∧ n = 0) ∨
          ((op = OP_1NEGATE_BYTE ∨ (OP_1_BYTE ≤ op ∧ op ≤ OP_16_BYTE)) ∧ data = [] ∧
            (op.toNat : Int) - (OP_1_BYTE.toNat - 1 : Nat) = n) ∨
          (data = serialize n ∧ CheckMinimalPush data op = .ok true))) := by
  constructor
  · intro s b hs hb
    obtain ⟨op, hpush⟩ := parseScript_pushBytes hb
    exact ⟨op, by rw [parseScript_append (pushBytes b) s hs, hpush]⟩
  · intro n hn hmin
    exact parseScript_push_int64 hn hmin

/-- A push of `ab cd` after `OP_1` is read as `OP_1`, then the push; and
`CScript() << 1000` is the push of `e8 03`. -/
theorem push_parse_roundTrip_opOne :
    (∃ op, parseScript ([0x51] ++ pushBytes [0xab, 0xcd]) =
      ((parseScript [0x51]).1.map (fun i => { i with next := i.next ++ pushBytes [0xab, 0xcd] }) ++
        [⟨op, [0xab, 0xcd], []⟩], false)) ∧
      push_int64 [] 1000 = [2, 0xe8, 0x03] ∧
      ∃ op data, parseScript (push_int64 [] 1000) = ([⟨op, data, []⟩], false) ∧
        ((op = OP_0 ∧ data = [] ∧ (1000 : Int) = 0) ∨
          ((op = OP_1NEGATE_BYTE ∨ (OP_1_BYTE ≤ op ∧ op ≤ OP_16_BYTE)) ∧ data = [] ∧
            (op.toNat : Int) - (OP_1_BYTE.toNat - 1 : Nat) = 1000) ∨
          (data = serialize 1000 ∧ CheckMinimalPush data op = .ok true)) := by
  have hs : (parseScript [0x51]).2 = false := by
    rw [parseScript_of_some (s := [0x51]) rfl, parseScript_nil]
  exact ⟨push_parse_roundTrip.1 [0x51] [0xab, 0xcd] hs (by decide),
    by simp +decide [push_int64, CScriptNum.serialize, leBytes, pushBytes],
    push_parse_roundTrip.2 1000 (by decide) (by decide)⟩

end Script

end BitcoinAbc
