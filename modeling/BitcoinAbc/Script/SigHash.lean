import Mathlib
import BitcoinAbc.Script.Push
import BitcoinAbc.Serialize.Integers

/-!
# The script code in the legacy signature hash (script/interpreter.cpp)

`CTransactionSignatureSerializer::SerializeScriptCode` writes the script code
without its `OP_CODESEPARATOR`s. It walks the script twice with `GetOp`: once
to count the separators, whose number it takes off the length it announces
with `WriteCompactSize`, and once to write the runs of bytes between them.

- `scriptOps`: the operations of a script, each with its opcode and its bytes,
  as `GetScriptOp` cuts them; they cover a script that decodes to its end
  (`flatMap_scriptOps`), and a separator is the one byte `0xab`;
- `SerializeScriptCode_spec`: for a script that decodes to its end, the
  serializer writes the announced length, then exactly the bytes of the
  operations that are not separators, in order, and their number is the
  announced length.

Where `GetOp` fails it has already moved `pc` past the opcode, and past the
size field when the data is short (`GetScriptOpFailPc`); the final write runs
up to there.
-/

namespace BitcoinAbc

namespace Script

/-- `OP_CODESEPARATOR`. -/
def OP_CODESEPARATOR_BYTE : UInt8 := 0xab

/-- Where a failing `GetScriptOp` leaves `pc`: it does not move at the end, and
otherwise it has read the opcode, and the size field when that fits. -/
def GetScriptOpFailPc : List UInt8 → List UInt8
  | [] => []
  | opcode :: rest =>
    if opcode ≤ OP_PUSHDATA4 then
      match sizeField opcode rest with
      | none => rest
      | some (_, r) => r
    else rest

/-- The first loop of `SerializeScriptCode`: the `OP_CODESEPARATOR`s `GetOp`
reads before it stops. -/
def countCodeSeparators (it : CScript) : Nat :=
  match _h : GetScriptOp it with
  | none => 0
  | some (opcode, _, rest) =>
    (if opcode = OP_CODESEPARATOR_BYTE then 1 else 0) + countCodeSeparators rest
termination_by it.length
decreasing_by exact getScriptOp_length_lt _h

/-- The second loop of `SerializeScriptCode`, with `it` at or after
`itBegin`: at each `OP_CODESEPARATOR` it writes the bytes from `itBegin` up to
the separator, `it - itBegin - 1` of them, and moves `itBegin` after it; once
`GetOp` stops, the bytes from `itBegin` up to where `GetOp` left `it`. -/
def writeSegments (itBegin it : CScript) : List UInt8 :=
  match _h : GetScriptOp it with
  | none =>
    if itBegin ≠ [] then itBegin.take (itBegin.length - (GetScriptOpFailPc it).length) else []
  | some (opcode, _, rest) =>
    if opcode = OP_CODESEPARATOR_BYTE then
      itBegin.take (itBegin.length - rest.length - 1) ++ writeSegments rest rest
    else writeSegments itBegin rest
termination_by it.length
decreasing_by
  · exact getScriptOp_length_lt _h
  · exact getScriptOp_length_lt _h

/-- `CTransactionSignatureSerializer::SerializeScriptCode(s)`: the bytes it
writes. -/
def SerializeScriptCode (scriptCode : CScript) : List UInt8 :=
  Serialize.WriteCompactSize (scriptCode.length - countCodeSeparators scriptCode).toUInt64 ++
    writeSegments scriptCode scriptCode

/-- The operations of a script as `GetScriptOp` cuts them: each opcode with the
bytes it spans, up to where decoding stops. -/
def scriptOps (s : CScript) : List (UInt8 × List UInt8) :=
  match _h : GetScriptOp s with
  | none => []
  | some (opcode, _, rest) => (opcode, s.take (s.length - rest.length)) :: scriptOps rest
termination_by s.length
decreasing_by exact getScriptOp_length_lt _h

/-! ## One operation at a time -/

section Unfold

variable {s rest : CScript} {opcode : UInt8} {data : valtype}

theorem countCodeSeparators_of_some (h : GetScriptOp s = some (opcode, data, rest)) :
    countCodeSeparators s =
      (if opcode = OP_CODESEPARATOR_BYTE then 1 else 0) + countCodeSeparators rest := by
  rw [countCodeSeparators]
  split
  · rename_i h'
    rw [h] at h'
    cases h'
  · rename_i h'
    rw [h] at h'
    cases h'
    rfl

theorem writeSegments_of_some (itBegin : CScript) (h : GetScriptOp s = some (opcode, data, rest)) :
    writeSegments itBegin s =
      if opcode = OP_CODESEPARATOR_BYTE then
        itBegin.take (itBegin.length - rest.length - 1) ++ writeSegments rest rest
      else writeSegments itBegin rest := by
  rw [writeSegments]
  split
  · rename_i h'
    rw [h] at h'
    cases h'
  · rename_i h'
    rw [h] at h'
    cases h'
    rfl

theorem scriptOps_of_some (h : GetScriptOp s = some (opcode, data, rest)) :
    scriptOps s = (opcode, s.take (s.length - rest.length)) :: scriptOps rest := by
  rw [scriptOps]
  split
  · rename_i h'
    rw [h] at h'
    cases h'
  · rename_i h'
    rw [h] at h'
    cases h'
    rfl

theorem countCodeSeparators_nil : countCodeSeparators [] = 0 := by
  rw [countCodeSeparators]
  rfl

theorem writeSegments_nil (itBegin : CScript) :
    writeSegments itBegin [] = if itBegin ≠ [] then itBegin else [] := by
  rw [writeSegments]
  simp [GetScriptOp, GetScriptOpFailPc]

theorem scriptOps_nil : scriptOps [] = [] := by
  rw [scriptOps]
  rfl

/-- The size field is read from the front: the bytes after it are a suffix. -/
theorem sizeField_suffix {b : UInt8} {r r' : List UInt8} {n : Nat} (h : sizeField b r = some (n, r')) :
    r' <:+ r := by
  unfold sizeField at h
  split at h
  · obtain ⟨-, rfl⟩ := Prod.mk.inj (Option.some.inj h)
    exact List.suffix_refl r
  split at h
  · split at h
    · obtain ⟨-, rfl⟩ := Prod.mk.inj (Option.some.inj h)
      exact List.suffix_cons _ _
    · cases h
  split at h
  · split at h
    · cases h
    · obtain ⟨-, rfl⟩ := Prod.mk.inj (Option.some.inj h)
      exact List.drop_suffix _ _
  · split at h
    · cases h
    · obtain ⟨-, rfl⟩ := Prod.mk.inj (Option.some.inj h)
      exact List.drop_suffix _ _

/-- A decoded operation is read from the front: the bytes after it are a
suffix. -/
theorem GetScriptOp_suffix (h : GetScriptOp s = some (opcode, data, rest)) : rest <:+ s := by
  cases s with
  | nil => simp [GetScriptOp] at h
  | cons b r =>
    rw [GetScriptOp_cons] at h
    split at h
    · split at h
      · cases h
      · rename_i r' hsized
        split at h
        · cases h
        · simp only [Option.some.injEq, Prod.mk.injEq] at h
          obtain ⟨-, -, rfl⟩ := h
          exact (List.drop_suffix _ _).trans ((sizeField_suffix hsized).trans (List.suffix_cons _ _))
    · simp only [Option.some.injEq, Prod.mk.injEq] at h
      obtain ⟨-, -, rfl⟩ := h
      exact List.suffix_cons _ _

/-- A decoded operation is the first bytes of the script, followed by the rest. -/
theorem eq_take_append_of_some (h : GetScriptOp s = some (opcode, data, rest)) :
    s = s.take (s.length - rest.length) ++ rest := by
  obtain ⟨t, rfl⟩ := GetScriptOp_suffix h
  simp

/-- `GetScriptOp` returns the byte it read as the opcode. -/
theorem GetScriptOp_opcode {b : UInt8} {r : List UInt8} (h : GetScriptOp (b :: r) = some (opcode, data, rest)) :
    opcode = b := by
  rw [GetScriptOp_cons] at h
  split at h
  · split at h
    · cases h
    · split at h
      · cases h
      · exact (Prod.mk.inj (Option.some.inj h)).1.symm
  · exact (Prod.mk.inj (Option.some.inj h)).1.symm

/-- A separator decodes as its one byte. -/
theorem eq_of_codeSeparator (h : GetScriptOp s = some (OP_CODESEPARATOR_BYTE, data, rest)) :
    s = OP_CODESEPARATOR_BYTE :: rest := by
  cases s with
  | nil => simp [GetScriptOp] at h
  | cons b r =>
    obtain rfl := (GetScriptOp_opcode h).symm
    rw [GetScriptOp_cons_of_gt r (by decide)] at h
    simp only [Option.some.injEq, Prod.mk.injEq] at h
    obtain ⟨-, -, rfl⟩ := h
    rfl

end Unfold

/-! ## The two loops against the operations -/

/-- The operations cover a script that decodes to its end. -/
theorem flatMap_scriptOps (s : CScript) (h : (parseScript s).2 = false) :
    (scriptOps s).flatMap Prod.snd = s := by
  induction s using parseScript.induct with
  | case1 s hnone =>
    rw [parseScript_of_none hnone] at h
    have hs : s = [] := List.isEmpty_iff.mp (by simpa using h)
    subst hs
    rw [scriptOps_nil, List.flatMap_nil]
  | case2 s opcode data rest hsome ih =>
    rw [parseScript_of_some hsome] at h
    rw [scriptOps_of_some hsome, List.flatMap_cons, ih h]
    exact (eq_take_append_of_some hsome).symm

/-- The first loop counts the separators among the operations. -/
theorem countCodeSeparators_eq (s : CScript) :
    countCodeSeparators s = (scriptOps s).countP (·.1 == OP_CODESEPARATOR_BYTE) := by
  induction s using parseScript.induct with
  | case1 s hnone =>
    rw [countCodeSeparators, scriptOps]
    split
    · rfl
    · rename_i h'
      rw [hnone] at h'
      cases h'
  | case2 s opcode data rest hsome ih =>
    rw [countCodeSeparators_of_some hsome, scriptOps_of_some hsome, List.countP_cons, ih]
    by_cases hsep : opcode = OP_CODESEPARATOR_BYTE
    · simp [hsep]
      omega
    · simp [hsep]

/-- The bytes of the operations that are not separators, in order. -/
def scriptCodePayload (s : CScript) : List UInt8 :=
  ((scriptOps s).filter (·.1 != OP_CODESEPARATOR_BYTE)).flatMap Prod.snd

/-- The second loop, with the bytes `seg` since the last separator not yet
written: it writes them and then the bytes of the operations that are not
separators. The induction is on the operations of `it`. -/
theorem writeSegments_eq (seg it : CScript) (h : (parseScript it).2 = false) :
    writeSegments (seg ++ it) it = seg ++ scriptCodePayload it := by
  induction it using parseScript.induct generalizing seg with
  | case1 s hnone =>
    rw [parseScript_of_none hnone] at h
    have hs : s = [] := List.isEmpty_iff.mp (by simpa using h)
    subst hs
    rw [List.append_nil, writeSegments_nil, scriptCodePayload, scriptOps_nil]
    by_cases hseg : seg = []
    · simp [hseg]
    · simp [hseg]
  | case2 s opcode data rest hsome ih =>
    rw [parseScript_of_some hsome] at h
    rw [writeSegments_of_some _ hsome, scriptCodePayload, scriptOps_of_some hsome]
    by_cases hsep : opcode = OP_CODESEPARATOR_BYTE
    · -- the separator is one byte: `seg` is written and the next run starts after it
      subst hsep
      have hs := eq_of_codeSeparator hsome
      have hseg : (seg ++ s).take ((seg ++ s).length - rest.length - 1) = seg := by
        rw [hs, List.length_append, List.length_cons,
          show seg.length + (rest.length + 1) - rest.length - 1 = seg.length by omega]
        exact List.take_left' rfl
      have hrest := ih [] h
      rw [List.nil_append, List.nil_append] at hrest
      rw [if_pos rfl, hseg, hrest]
      simp [scriptCodePayload]
    · -- the operation joins the run since the last separator
      have hs := eq_take_append_of_some hsome
      rw [if_neg hsep]
      conv_lhs => rw [hs, ← List.append_assoc]
      rw [ih _ h]
      simp [hsep, scriptCodePayload]

/-- Each separator among the operations is its one byte. -/
theorem scriptOps_codeSeparator (s : CScript) :
    ∀ op ∈ scriptOps s, op.1 = OP_CODESEPARATOR_BYTE → op.2 = [OP_CODESEPARATOR_BYTE] := by
  induction s using parseScript.induct with
  | case1 s hnone =>
    rw [scriptOps]
    split
    · intro op hop
      cases hop
    · rename_i h'
      rw [hnone] at h'
      cases h'
  | case2 s opcode data rest hsome ih =>
    rw [scriptOps_of_some hsome]
    rintro op (_ | ⟨_, hop⟩)
    · intro hsep
      -- the operation is `0xab` alone
      dsimp only at hsep ⊢
      subst hsep
      rw [eq_of_codeSeparator hsome]
      simp
    · exact ih op hop

/-- Dropping operations of one byte each shortens the bytes by their number. -/
theorem length_payload_add_count (ops : List (UInt8 × List UInt8))
    (hsep : ∀ op ∈ ops, op.1 = OP_CODESEPARATOR_BYTE → op.2 = [OP_CODESEPARATOR_BYTE]) :
    ((ops.filter (·.1 != OP_CODESEPARATOR_BYTE)).flatMap Prod.snd).length +
      ops.countP (·.1 == OP_CODESEPARATOR_BYTE) = (ops.flatMap Prod.snd).length := by
  induction ops with
  | nil => rfl
  | cons op ops ih =>
    have ih' := ih fun op' hop' => hsep op' (List.mem_cons_of_mem _ hop')
    by_cases h : op.1 = OP_CODESEPARATOR_BYTE
    · have hop : op.2 = [OP_CODESEPARATOR_BYTE] := hsep op List.mem_cons_self h
      simp only [List.filter_cons, h, bne_self_eq_false, Bool.false_eq_true, ↓reduceIte,
        List.countP_cons, beq_self_eq_true, List.flatMap_cons, List.length_append, hop,
        List.length_singleton]
      omega
    · have h' : (op.1 != OP_CODESEPARATOR_BYTE) = true := bne_iff_ne.mpr h
      have h'' : (op.1 == OP_CODESEPARATOR_BYTE) = false := beq_eq_false_iff_ne.mpr h
      simp only [List.filter_cons, h', ↓reduceIte, List.countP_cons, h'', Bool.false_eq_true,
        List.flatMap_cons, List.length_append]
      omega

/-- For a script code that decodes to its end, `SerializeScriptCode` writes the
length it announces: the operations cover the script, it announces the length
less the `k` separators, then writes the bytes of the other operations, in
order, and there are exactly as many as announced. -/
theorem SerializeScriptCode_spec (scriptCode : CScript) (h : (parseScript scriptCode).2 = false) :
    let k := (scriptOps scriptCode).countP (·.1 == OP_CODESEPARATOR_BYTE)
    (scriptOps scriptCode).flatMap Prod.snd = scriptCode ∧
      (∀ op ∈ scriptOps scriptCode, op.1 = OP_CODESEPARATOR_BYTE → op.2 = [OP_CODESEPARATOR_BYTE]) ∧
      SerializeScriptCode scriptCode =
        Serialize.WriteCompactSize (scriptCode.length - k).toUInt64 ++ scriptCodePayload scriptCode ∧
      (scriptCodePayload scriptCode).length = scriptCode.length - k := by
  intro k
  have hcover := flatMap_scriptOps scriptCode h
  have hsep := scriptOps_codeSeparator scriptCode
  refine ⟨hcover, hsep, ?_, ?_⟩
  · have hwrite := writeSegments_eq [] scriptCode h
    rw [List.nil_append, List.nil_append] at hwrite
    rw [SerializeScriptCode, countCodeSeparators_eq, hwrite]
  · have hlen := length_payload_add_count (scriptOps scriptCode) hsep
    rw [hcover] at hlen
    rw [scriptCodePayload]
    omega

/-- `push 0xab; OP_CODESEPARATOR; OP_1`: the pushed `0xab` is data and stays,
the separator goes, and one byte less is announced. -/
theorem SerializeScriptCode_spec_pushedSeparator :
    (parseScript [0x01, 0xab, 0xab, 0x51]).2 = false ∧
      let k := (scriptOps [0x01, 0xab, 0xab, 0x51]).countP (·.1 == OP_CODESEPARATOR_BYTE)
      (scriptOps [0x01, 0xab, 0xab, 0x51]).flatMap Prod.snd = [0x01, 0xab, 0xab, 0x51] ∧
        (∀ op ∈ scriptOps [0x01, 0xab, 0xab, 0x51],
          op.1 = OP_CODESEPARATOR_BYTE → op.2 = [OP_CODESEPARATOR_BYTE]) ∧
        SerializeScriptCode [0x01, 0xab, 0xab, 0x51] =
          Serialize.WriteCompactSize ([0x01, 0xab, 0xab, 0x51].length - k).toUInt64 ++
            scriptCodePayload [0x01, 0xab, 0xab, 0x51] ∧
        (scriptCodePayload [0x01, 0xab, 0xab, 0x51]).length = [0x01, 0xab, 0xab, 0x51].length - k := by
  have h : (parseScript [0x01, 0xab, 0xab, 0x51]).2 = false := by
    rw [parseScript_of_some (s := [0x01, 0xab, 0xab, 0x51]) rfl, parseScript_of_some rfl,
      parseScript_of_some rfl, parseScript_nil]
  exact ⟨h, SerializeScriptCode_spec _ h⟩

end Script

end BitcoinAbc
