import Mathlib
import BitcoinAbc.Script.Interpreter

/-!
# The Schnorr path of `OP_CHECKMULTISIG` (script/interpreter.cpp)

With Schnorr multisig the dummy element is a bit field (`checkBits`) of the
keys to check, with exactly `nSigsCount` bits set. The loop pairs the
signatures, from the bottom one up, with the keys at the set bits, from the
bottom key up: its counter `iKey` advances in the `for` header and in the inner
scan (`nextSetBit`), and three guards that the source calls unreachable stand
around it.

The set bits at or above a position are Mathlib's `Nat.bitIndices` of the
shifted field (`bitsFrom`). The inner scan finds the first of them
(`bitsFrom_nextSetBit`), so the loop is a fold of one check (`checkSigKey`)
over the signature indices zipped with the set bits
(`schnorrMultisigLoop_eq`), and none of the three guards fires; the whole
path is `schnorrMultisig_checkBits`.
-/

namespace BitcoinAbc

namespace Script

/-! ## The set bits from a position on -/

section Bits

variable {v i : Nat}

/-- The positions of the set bits of `v` at or above `i`, increasing. -/
def bitsFrom (v i : Nat) : List Nat := (v >>> i).bitIndices.map (· + i)

theorem bitsFrom_zero (v : Nat) : bitsFrom v 0 = v.bitIndices := by
  simp [bitsFrom]

/-- The bit at `i` and the bits above it. -/
theorem shiftRight_eq_two_mul_add (v i : Nat) :
    v >>> i = 2 * (v >>> (i + 1)) + (v >>> i) % 2 := by
  rw [Nat.shiftRight_succ]
  omega

/-- Positions counted from `i + 1`, shifted to count from `i`. -/
theorem map_add_comp_succ (l : List Nat) (i : Nat) :
    l.map ((· + i) ∘ (· + 1)) = l.map (· + (i + 1)) :=
  List.map_congr_left fun b _ => by
    simp only [Function.comp_apply]
    omega

theorem bitsFrom_of_clear (h : (v >>> i) % 2 = 0) : bitsFrom v i = bitsFrom v (i + 1) := by
  unfold bitsFrom
  rw [shiftRight_eq_two_mul_add v i, h, Nat.add_zero, Nat.bitIndices_two_mul, List.map_map,
    map_add_comp_succ]

theorem bitsFrom_of_set (h : (v >>> i) % 2 = 1) : bitsFrom v i = i :: bitsFrom v (i + 1) := by
  unfold bitsFrom
  rw [shiftRight_eq_two_mul_add v i, h, Nat.bitIndices_two_mul_add_one, List.map_cons,
    List.map_map, Nat.zero_add, map_add_comp_succ]

/-- The inner scan stops at the first set bit at or above `i`. -/
theorem bitsFrom_nextSetBit (h : v >>> i ≠ 0) :
    bitsFrom v i = nextSetBit v i h :: bitsFrom v (nextSetBit v i h + 1) := by
  fun_induction nextSetBit v i h with
  | case1 i h hbit ih =>
    rw [bitsFrom_of_clear hbit, ih]
  | case2 i h hbit =>
    exact bitsFrom_of_set (by omega)

theorem bitsFrom_eq_nil_iff : bitsFrom v i = [] ↔ v >>> i = 0 := by
  constructor
  · intro h
    have hsum := Nat.sum_map_two_pow_bitIndices (v >>> i)
    rw [bitsFrom, List.map_eq_nil_iff] at h
    rw [h] at hsum
    exact hsum.symm
  · intro h
    rw [bitsFrom, h, Nat.bitIndices_zero, List.map_nil]

theorem mem_bitIndices_of_mem_bitsFrom {b : Nat} (h : b ∈ bitsFrom v i) : b ∈ v.bitIndices := by
  obtain ⟨c, hc, rfl⟩ := List.mem_map.mp h
  rw [Nat.mem_bitIndices] at hc ⊢
  rw [Nat.testBit_shiftRight] at hc
  rwa [Nat.add_comm]

/-- `countBits` counts the set bits. -/
theorem countBits_eq_length (v : Nat) : countBits v = v.bitIndices.length := by
  induction v using Nat.strong_induction_on with
  | _ v ih =>
    rw [countBits_eq]
    split
    · rename_i hv
      rw [hv, Nat.bitIndices_zero, List.length_nil]
    · rename_i hv
      rw [ih (v / 2) (by omega)]
      -- the low bit, then the bits of `v / 2`
      rcases Nat.mod_two_eq_zero_or_one v with h2 | h2
      · have hv2 : v = 2 * (v / 2) := by omega
        conv_rhs => rw [hv2]
        rw [Nat.bitIndices_two_mul, List.length_map, h2, Nat.zero_add]
      · have hv2 : v = 2 * (v / 2) + 1 := by omega
        conv_rhs => rw [hv2]
        rw [Nat.bitIndices_two_mul_add_one, List.length_cons, List.length_map, h2, Nat.add_comm]

/-- A field below `2 ^ n` has its set bits below `n`. -/
theorem lt_of_mem_bitIndices {n b : Nat} (hv : v < 2 ^ n) (hb : b ∈ v.bitIndices) : b < n :=
  (Nat.pow_lt_pow_iff_right (by decide)).mp
    (Nat.lt_of_le_of_lt (Nat.two_pow_le_of_mem_bitIndices hb) hv)

end Bits

/-- A decoded bit field has no bit at or above `size`. -/
theorem DecodeBitfield_lt {vch : valtype} {size bitfield : Nat}
    (h : DecodeBitfield vch size = .ok bitfield) : bitfield < 2 ^ size := by
  unfold DecodeBitfield at h
  rcases Except.bind_eq_ok.mp h with ⟨_, -, h⟩
  rcases Except.bind_eq_ok.mp h with ⟨_, -, h⟩
  rcases Except.bind_eq_ok.mp h with ⟨_, hrange, h⟩
  cases h
  have hmod : leValue vch % 2 ^ size = leValue vch := by simpa using hrange
  rw [← hmod]
  exact Nat.mod_lt _ (Nat.pow_pos (by decide))

/-! ## The loop -/

/-- One turn of the Schnorr multisig loop once the key is found: signature
`p.1` (from the bottom signature) against key `p.2` (from the bottom key). -/
def checkSigKey (env : EvalEnv) (stack : List valtype) (scriptCode : CScript)
    (idxBottomSig idxBottomKey : Nat) (metrics : ScriptExecutionMetrics) (p : Nat × Nat) :
    Except Thrown ScriptExecutionMetrics := do
  let vchSig ← stacktop stack (-(idxBottomSig : Int) + p.1)
  let vchPubKey ← stacktop stack (-(idxBottomKey : Int) + p.2)
  CheckTransactionSchnorrSignatureEncoding vchSig env.flags
  CheckPubKeyEncoding vchPubKey env.flags
  failIf (!env.checker.CheckSig vchSig vchPubKey scriptCode env.flags) .SIG_NULLFAIL
  return ⟨metrics.nSigChecks + 1⟩

/-- Each check that passes counts one signature check. -/
theorem nSigChecks_of_foldlM_checkSigKey {env : EvalEnv} {stack : List valtype}
    {scriptCode : CScript} {idxBottomSig idxBottomKey : Nat} :
    ∀ (l : List (Nat × Nat)) (m m' : ScriptExecutionMetrics),
      l.foldlM (checkSigKey env stack scriptCode idxBottomSig idxBottomKey) m = .ok m' →
        m'.nSigChecks = m.nSigChecks + l.length
  | [], m, m', h => by
    cases h
    simp
  | p :: l, m, m', h => by
    rw [List.foldlM_cons] at h
    obtain ⟨m₁, h₁, hrest⟩ := Except.bind_eq_ok.mp h
    have hm₁ : m₁.nSigChecks = m.nSigChecks + 1 := by
      unfold checkSigKey at h₁
      rcases Except.bind_eq_ok.mp h₁ with ⟨_, -, h₁⟩
      rcases Except.bind_eq_ok.mp h₁ with ⟨_, -, h₁⟩
      rcases Except.bind_eq_ok.mp h₁ with ⟨_, -, h₁⟩
      rcases Except.bind_eq_ok.mp h₁ with ⟨_, -, h₁⟩
      rcases Except.bind_eq_ok.mp h₁ with ⟨_, -, h₁⟩
      cases h₁
      rfl
    rw [nSigChecks_of_foldlM_checkSigKey l m₁ m' hrest, hm₁, List.length_cons]
    omega

section Loop

variable (env : EvalEnv) (stack : List valtype) (scriptCode : CScript)
  (checkBits nKeysCount idxBottomSig idxBottomKey : Nat)

/-- The loop with `k` turns left, from signature `iSig` and key position
`iKey`, where `k` set bits remain at or above `iKey`, all of them below
`nKeysCount`: it checks the signatures from `iSig` on against those bits in
increasing order, and stops at a position above which no bit is set. -/
theorem schnorrMultisigLoop_eq (hbits : ∀ b ∈ checkBits.bitIndices, b < nKeysCount) :
    ∀ (k iSig iKey : Nat), (bitsFrom checkBits iKey).length = k →
      ∃ iKey', checkBits >>> iKey' = 0 ∧ ∀ metrics,
        schnorrMultisigLoop env stack scriptCode checkBits nKeysCount idxBottomSig idxBottomKey
            k iSig iKey metrics =
          ((List.range' iSig k).zip (bitsFrom checkBits iKey)).foldlM
              (checkSigKey env stack scriptCode idxBottomSig idxBottomKey) metrics >>=
            fun m => pure (iKey', m)
  | 0, iSig, iKey, hlen => by
    -- no set bit is left: the loop ends here
    refine ⟨iKey, bitsFrom_eq_nil_iff.mp (List.length_eq_zero_iff.mp hlen), fun metrics => ?_⟩
    simp [schnorrMultisigLoop]
    rfl
  | k + 1, iSig, iKey, hlen => by
    have hne : checkBits >>> iKey ≠ 0 := fun h0 => by
      rw [bitsFrom_eq_nil_iff.mpr h0] at hlen
      cases hlen
    -- the scan finds the next set bit, which is below `nKeysCount`
    have hnext := bitsFrom_nextSetBit hne
    have hkey : nextSetBit checkBits iKey hne < nKeysCount :=
      hbits _ (mem_bitIndices_of_mem_bitsFrom (by rw [hnext]; exact List.mem_cons_self))
    have hrest : (bitsFrom checkBits (nextSetBit checkBits iKey hne + 1)).length = k := by
      rw [hnext, List.length_cons] at hlen
      omega
    obtain ⟨iKey', hend, ih⟩ :=
      schnorrMultisigLoop_eq hbits k (iSig + 1) (nextSetBit checkBits iKey hne + 1) hrest
    have hpass : failIf (decide (nextSetBit checkBits iKey hne ≥ nKeysCount)) .PUBKEY_COUNT =
        .ok () := failIf_eq_ok.mpr (by simpa using hkey)
    refine ⟨iKey', hend, fun metrics => ?_⟩
    rw [schnorrMultisigLoop, dif_neg hne, hnext, List.range'_succ, List.zip_cons_cons,
      List.foldlM_cons]
    simp only [hpass, Except.ok_bind, ih, checkSigKey, bind_assoc, pure_bind]

end Loop

/-- Schnorr-mode `OP_CHECKMULTISIG` pairs signatures with keys exactly by the
check bits: once the dummy element decodes to a bit field with `nSigsCount`
bits set, the bits lie below `nKeysCount`, and the path checks signature `i`
(from the bottom signature) against the key at the `i`-th set bit (from the
bottom key), for `i` from `0` to `nSigsCount - 1`, in increasing order of the
bits; no other error than those of the checks can occur, so none of the
three unreachable guards fires; and on success it adds exactly `nSigsCount`
signature checks. -/
theorem schnorrMultisig_checkBits (env : EvalEnv) (stack : List valtype) (scriptCode : CScript)
    (idxTopKey idxTopSig idxDummy nKeysCount nSigsCount : Nat) (metrics : ScriptExecutionMetrics)
    (vchDummy : valtype) (checkBits : Nat)
    (hdummy : stacktop stack (-(idxDummy : Int)) = .ok vchDummy)
    (hdecode : DecodeBitfield vchDummy nKeysCount = .ok checkBits)
    (hcount : countBits checkBits = nSigsCount) :
    checkBits.bitIndices.length = nSigsCount ∧ (∀ b ∈ checkBits.bitIndices, b < nKeysCount) ∧
      schnorrMultisig env stack scriptCode idxTopKey idxTopSig idxDummy nKeysCount nSigsCount
          metrics =
        ((List.range nSigsCount).zip checkBits.bitIndices).foldlM
          (checkSigKey env stack scriptCode (idxTopSig + nSigsCount - 1)
            (idxTopKey + nKeysCount - 1)) metrics ∧
      ∀ m', schnorrMultisig env stack scriptCode idxTopKey idxTopSig idxDummy nKeysCount
          nSigsCount metrics = .ok m' → m'.nSigChecks = metrics.nSigChecks + nSigsCount := by
  have hlen : checkBits.bitIndices.length = nSigsCount := by rw [← countBits_eq_length, hcount]
  have hbits : ∀ b ∈ checkBits.bitIndices, b < nKeysCount :=
    fun b hb => lt_of_mem_bitIndices (DecodeBitfield_lt hdecode) hb
  have hpass : failIf (countBits checkBits != nSigsCount) .INVALID_BIT_COUNT = .ok () :=
    failIf_eq_ok.mpr (by simp [hcount])
  obtain ⟨iKey', hend, hloop⟩ := schnorrMultisigLoop_eq env stack scriptCode checkBits nKeysCount
    (idxTopSig + nSigsCount - 1) (idxTopKey + nKeysCount - 1) hbits nSigsCount 0 0
    (by rw [bitsFrom_zero, hlen])
  -- the guard after the loop: no bit is set above the last key checked
  have hfinal : failIf (checkBits >>> iKey' != 0) .INVALID_BIT_COUNT = .ok () :=
    failIf_eq_ok.mpr (by simp [hend])
  have heq : schnorrMultisig env stack scriptCode idxTopKey idxTopSig idxDummy nKeysCount
      nSigsCount metrics =
      ((List.range nSigsCount).zip checkBits.bitIndices).foldlM
        (checkSigKey env stack scriptCode (idxTopSig + nSigsCount - 1)
          (idxTopKey + nKeysCount - 1)) metrics := by
    rw [schnorrMultisig, hdummy, Except.ok_bind, hdecode, Except.ok_bind, hpass, Except.ok_bind]
    simp only [hloop, bitsFrom_zero, ← List.range_eq_range', bind_assoc, pure_bind, hfinal,
      Except.ok_bind]
    exact bind_pure _
  refine ⟨hlen, hbits, heq, fun m' h => ?_⟩
  rw [heq] at h
  rw [nSigChecks_of_foldlM_checkSigKey _ metrics m' h, List.length_zip, List.length_range, hlen,
    Nat.min_self]

/-- Two signatures against three keys, with the dummy `0x05` selecting keys `0`
and `2`, under a checker that accepts every signature. -/
theorem schnorrMultisig_checkBits_keysZeroTwo :
    stacktop [[5]] (-((1 : Nat) : Int)) = .ok [5] ∧ DecodeBitfield [5] 3 = .ok 5 ∧
      countBits 5 = 2 ∧
      ((5 : Nat).bitIndices.length = 2 ∧ (∀ b ∈ (5 : Nat).bitIndices, b < 3) ∧
        schnorrMultisig ⟨⟨id, id, id, fun _ => true⟩, 0,
            ⟨fun _ _ _ => true, fun _ _ _ _ => true, fun _ => true, fun _ => true⟩⟩
            [[5]] [] 0 0 1 3 2 {} =
          ((List.range 2).zip (5 : Nat).bitIndices).foldlM
            (checkSigKey ⟨⟨id, id, id, fun _ => true⟩, 0,
                ⟨fun _ _ _ => true, fun _ _ _ _ => true, fun _ => true, fun _ => true⟩⟩
              [[5]] [] (0 + 2 - 1) (0 + 3 - 1)) {} ∧
        ∀ m', schnorrMultisig ⟨⟨id, id, id, fun _ => true⟩, 0,
            ⟨fun _ _ _ => true, fun _ _ _ _ => true, fun _ => true, fun _ => true⟩⟩
            [[5]] [] 0 0 1 3 2 {} = .ok m' →
          m'.nSigChecks = ({} : ScriptExecutionMetrics).nSigChecks + 2) :=
  have hdummy : stacktop [[5]] (-((1 : Nat) : Int)) = .ok [5] := by decide
  have hdecode : DecodeBitfield [5] 3 = .ok 5 := by decide
  have hcount : countBits 5 = 2 := by decide
  ⟨hdummy, hdecode, hcount,
    schnorrMultisig_checkBits _ _ _ 0 0 1 3 2 {} [5] 5 hdummy hdecode hcount⟩

end Script

end BitcoinAbc
