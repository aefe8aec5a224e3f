import Mathlib
import BitcoinAbc.Script.Parse

/-!
# Signature and public-key encodings (script/sigencoding.cpp, bitfield.cpp)

The encoding checks `EvalScript` applies to signatures and keys before handing
them to the checker. Each is a guard: it either lets execution continue
unchanged or fails with the `ScriptError` the C++ stores through `serror`, so
each is an `Except Thrown Unit`.

Every flag these checks read (`DERSIG`, `LOW_S`, `STRICTENC`, and the
`SIGHASH_FORKID` flag it is compared with) only decides whether a failure is
raised; none changes what is computed when the check passes.

`CPubKey::CheckLowS` runs secp256k1's signature normalization: it is the
`CheckLowS` field of `Crypto`, a parameter of the model.

`IsValidDERSignatureEncoding_strictDER` says what the DER check accepts: exactly
the signatures `0x30 L 0x02 lenR R 0x02 lenS S` of at most 72 bytes whose `R`
and `S` are minimal positive integers (`DERSignature`, `IsStrictDERInteger`),
and it reads no byte outside the signature on the way
(`IsValidDERSignatureEncodingChecked`, the same checks with every read
bounds-checked).
-/

namespace BitcoinAbc

namespace Script

/-- The cryptographic primitives the interpreter calls, which live in the
crypto/ and secp256k1 code: hash functions and the low-S test. -/
structure Crypto where
  RIPEMD160 : valtype → valtype
  SHA1 : valtype → valtype
  SHA256 : valtype → valtype
  CheckLowS : valtype → Bool

/-- `CHash160`: RIPEMD160 of SHA256. -/
def Crypto.Hash160 (c : Crypto) (v : valtype) : valtype := c.RIPEMD160 (c.SHA256 v)

/-- `CHash256`: double SHA256. -/
def Crypto.Hash256 (c : Crypto) (v : valtype) : valtype := c.SHA256 (c.SHA256 v)

/-! ## Signature hash types (sighashtype.h) -/

def SIGHASH_FORKID : UInt32 := 0x40
def SIGHASH_ANYONECANPAY : UInt32 := 0x80

/-- `SigHashType`: the raw 32-bit hash type. -/
structure SigHashType where
  sigHash : UInt32
  deriving DecidableEq, Repr

namespace SigHashType

/-- `isDefined()`: the base type, forkid and anyonecanpay bits removed, is
`ALL`, `NONE` or `SINGLE` (the cast to the `uint8_t` enum keeps the low
byte). -/
def isDefined (t : SigHashType) : Bool :=
  let baseType := (t.sigHash &&& ~~~(SIGHASH_FORKID ||| SIGHASH_ANYONECANPAY)) % 256
  1 ≤ baseType && baseType ≤ 3

/-- `hasForkId()`. -/
def hasForkId (t : SigHashType) : Bool := t.sigHash &&& SIGHASH_FORKID != 0

end SigHashType

/-- `GetHashType(vchSig)`: the last byte of the signature. -/
def GetHashType (vchSig : valtype) : SigHashType :=
  match vchSig.getLast? with
  | none => ⟨0⟩
  | some b => ⟨b.toUInt32⟩

/-! ## Signature encodings -/

/-- `IsValidDERSignatureEncoding`: `0x30 [total-length] 0x02 [R-length] [R]
0x02 [S-length] [S]` with minimal positive `R` and `S` (`sig` has no hash-type
byte). Reads `sig[i]` as the C++ does; `getD` stands for the reads it does
without a bounds check. -/
def IsValidDERSignatureEncoding (sig : valtype) : Bool :=
  let n := sig.length
  let at' (i : Nat) : UInt8 := sig.getD i 0
  if n < 8 || n > 72 then false
  else if at' 0 != 0x30 then false
  else if (at' 1).toNat != n - 2 then false
  else if at' 2 != 0x02 then false
  else
    let lenR := (at' 3).toNat
    if lenR == 0 then false
    else if at' 4 &&& 0x80 != 0 then false
    else if lenR > n - 7 then false
    else if lenR > 1 && at' 4 == 0x00 && !(at' 5 &&& 0x80 != 0) then false
    else
      let startS := lenR + 4
      if at' startS != 0x02 then false
      else
        let lenS := (at' (startS + 1)).toNat
        if lenS == 0 then false
        else if at' (startS + 2) &&& 0x80 != 0 then false
        else if startS + lenS + 2 != n then false
        else if lenS > 1 && at' (startS + 2) == 0x00 && !(at' (startS + 3) &&& 0x80 != 0) then
          false
        else true

/-- `IsSchnorrSig`: 64-byte signatures are Schnorr signatures. -/
def IsSchnorrSig (sig : valtype) : Bool := sig.length == 64

/-- `CheckRawECDSASignatureEncoding`. -/
def CheckRawECDSASignatureEncoding (crypto : Crypto) (sig : valtype) (flags : UInt32) :
    Except Thrown Unit := do
  failIf (IsSchnorrSig sig) .SIG_BADLENGTH
  failIf (hasFlag flags (SCRIPT_VERIFY_DERSIG ||| SCRIPT_VERIFY_LOW_S ||| SCRIPT_VERIFY_STRICTENC) &&
    !IsValidDERSignatureEncoding sig) .SIG_DER
  failIf (hasFlag flags SCRIPT_VERIFY_LOW_S && !crypto.CheckLowS sig) .SIG_HIGH_S

/-- `CheckRawSchnorrSignatureEncoding`. -/
def CheckRawSchnorrSignatureEncoding (sig : valtype) : Except Thrown Unit :=
  failIf (!IsSchnorrSig sig) .SIG_NONSCHNORR

/-- `CheckRawSignatureEncoding`: a 64-byte signature is Schnorr, anything else
is checked as ECDSA. -/
def CheckRawSignatureEncoding (crypto : Crypto) (sig : valtype) (flags : UInt32) :
    Except Thrown Unit :=
  if IsSchnorrSig sig then .ok () else CheckRawECDSASignatureEncoding crypto sig flags

/-- `CheckDataSignatureEncoding`: the empty signature is allowed. -/
def CheckDataSignatureEncoding (crypto : Crypto) (vchSig : valtype) (flags : UInt32) :
    Except Thrown Unit :=
  if vchSig.length = 0 then .ok () else CheckRawSignatureEncoding crypto vchSig flags

/-- `CheckSighashEncoding`: under STRICTENC, a defined hash type that uses
`SIGHASH_FORKID` exactly when the flag enables it. -/
def CheckSighashEncoding (vchSig : valtype) (flags : UInt32) : Except Thrown Unit :=
  if hasFlag flags SCRIPT_VERIFY_STRICTENC then do
    failIf (!(GetHashType vchSig).isDefined) .SIG_HASHTYPE
    let usesForkId := (GetHashType vchSig).hasForkId
    let forkIdEnabled := hasFlag flags SCRIPT_ENABLE_SIGHASH_FORKID
    failIf (!forkIdEnabled && usesForkId) .ILLEGAL_FORKID
    failIf (forkIdEnabled && !usesForkId) .MUST_USE_FORKID
  else .ok ()

/-- `CheckTransactionSignatureEncodingImpl`: the empty signature is allowed;
otherwise the raw check `fun` on the signature without its hash-type byte, then
the hash type. -/
def CheckTransactionSignatureEncodingImpl (vchSig : valtype) (flags : UInt32)
    (fun' : valtype → UInt32 → Except Thrown Unit) : Except Thrown Unit :=
  if vchSig.length = 0 then .ok ()
  else do
    fun' (vchSig.take (vchSig.length - 1)) flags
    CheckSighashEncoding vchSig flags

/-- `CheckTransactionSignatureEncoding`. -/
def CheckTransactionSignatureEncoding (crypto : Crypto) (vchSig : valtype)
    (flags : UInt32) : Except Thrown Unit :=
  CheckTransactionSignatureEncodingImpl vchSig flags (CheckRawSignatureEncoding crypto)

/-- `CheckTransactionECDSASignatureEncoding`. -/
def CheckTransactionECDSASignatureEncoding (crypto : Crypto) (vchSig : valtype)
    (flags : UInt32) : Except Thrown Unit :=
  CheckTransactionSignatureEncodingImpl vchSig flags (CheckRawECDSASignatureEncoding crypto)

/-- `CheckTransactionSchnorrSignatureEncoding`. -/
def CheckTransactionSchnorrSignatureEncoding (vchSig : valtype) (flags : UInt32) :
    Except Thrown Unit :=
  CheckTransactionSignatureEncodingImpl vchSig flags fun sig _ =>
    CheckRawSchnorrSignatureEncoding sig

/-! ## Public keys -/

/-- `IsCompressedOrUncompressedPubKey`. -/
def IsCompressedOrUncompressedPubKey (vchPubKey : valtype) : Bool :=
  match vchPubKey.length with
  | 33 => vchPubKey.getD 0 0 == 0x02 || vchPubKey.getD 0 0 == 0x03
  | 65 => vchPubKey.getD 0 0 == 0x04
  | _ => false

/-- `CheckPubKeyEncoding`. -/
def CheckPubKeyEncoding (vchPubKey : valtype) (flags : UInt32) : Except Thrown Unit :=
  failIf (hasFlag flags SCRIPT_VERIFY_STRICTENC && !IsCompressedOrUncompressedPubKey vchPubKey)
    .PUBKEYTYPE

/-! ## Multisig bitfields (bitfield.cpp, util/bitmanip.h) -/

/-- `DecodeBitfield(vch, size, bitfield)`: the little-endian bit field of
`(size + 7) / 8` bytes, with no bit at or above `size`. -/
def DecodeBitfield (vch : valtype) (size : Nat) : Except Thrown Nat := do
  failIf (size > 32) .INVALID_BITFIELD_SIZE
  failIf (vch.length != (size + 7) / 8) .INVALID_BITFIELD_SIZE
  let bitfield := leValue vch
  -- `(bitfield & mask) != bitfield` with `mask = 2^size - 1`
  failIf (bitfield % 2 ^ size != bitfield) .INVALID_BIT_RANGE
  return bitfield

/-- The bit count of `v` with at most `fuel` turns, each adding the lowest bit
and dropping it. -/
def countBitsAux : Nat → Nat → Nat
  | 0, _ => 0
  | fuel + 1, v => if v = 0 then 0 else v % 2 + countBitsAux fuel (v / 2)

/-- `countBits`: the number of set bits (`__builtin_popcount`). Each turn
halves `v`, so `v` turns are enough. -/
def countBits (v : Nat) : Nat := countBitsAux v v

/-- Any fuel of at least `v` turns gives the same count. -/
theorem countBitsAux_of_le : ∀ (n m v : Nat), v ≤ n → v ≤ m → countBitsAux n v = countBitsAux m v
  | 0, m, v, hn, _ => by
    obtain rfl : v = 0 := Nat.le_zero.mp hn
    cases m <;> rfl
  | n + 1, 0, v, _, hm => by
    obtain rfl : v = 0 := Nat.le_zero.mp hm
    rfl
  | n + 1, m + 1, v, hn, hm => by
    rw [countBitsAux, countBitsAux]
    split
    · rfl
    · rw [countBitsAux_of_le n m (v / 2) (by omega) (by omega)]

/-- The recursion of the bit count: the lowest bit, then the bits of `v / 2`. -/
theorem countBits_eq (v : Nat) : countBits v = if v = 0 then 0 else v % 2 + countBits (v / 2) := by
  unfold countBits
  cases v with
  | zero => rfl
  | succ k =>
    rw [countBitsAux, countBitsAux_of_le k ((k + 1) / 2) ((k + 1) / 2) (by omega) le_rfl]

/-! ## The strict DER grammar -/

/-- `IsValidDERSignatureEncoding` with every read `sig[i]` bounds-checked:
`none` where a read falls outside `sig`. The operands of `&&` are read left to
right and only as far as needed, as in C++. -/
def IsValidDERSignatureEncodingChecked (sig : valtype) : Option Bool :=
  let n := sig.length
  if n < 8 || n > 72 then some false
  else sig[0]? >>= fun b0 => if b0 != 0x30 then some false
  else sig[1]? >>= fun b1 => if b1.toNat != n - 2 then some false
  else sig[2]? >>= fun b2 => if b2 != 0x02 then some false
  else sig[3]? >>= fun b3 =>
    let lenR := b3.toNat
    if lenR == 0 then some false
    else sig[4]? >>= fun b4 => if b4 &&& 0x80 != 0 then some false
    else if lenR > n - 7 then some false
    else
      (if lenR > 1 && b4 == 0x00 then sig[5]?.map fun b5 => !(b5 &&& 0x80 != 0) else some false)
        >>= fun nullR => if nullR then some false
    else
      let startS := lenR + 4
      sig[startS]? >>= fun bS => if bS != 0x02 then some false
      else sig[startS + 1]? >>= fun bLenS =>
        let lenS := bLenS.toNat
        if lenS == 0 then some false
        else sig[startS + 2]? >>= fun s0 => if s0 &&& 0x80 != 0 then some false
        else if startS + lenS + 2 != n then some false
        else
          (if lenS > 1 && s0 == 0x00 then sig[startS + 3]?.map fun s1 => !(s1 &&& 0x80 != 0)
            else some false) >>= fun nullS => if nullS then some false
        else some true

/-- A positive integer as strict DER writes it: at least one byte, the sign bit
of the first clear, and a first byte `0x00` only where the next byte has its top
bit set. -/
def IsStrictDERInteger : valtype → Bool
  | [] => false
  | [b] => b &&& 0x80 == 0
  | b :: c :: _ => b &&& 0x80 == 0 && (b != 0x00 || c &&& 0x80 != 0)

/-- `0x30 [total-length] 0x02 [R-length] [R] 0x02 [S-length] [S]`. -/
def DERSignature (R S : valtype) : valtype :=
  [0x30, UInt8.ofNat (R.length + S.length + 4), 0x02, UInt8.ofNat R.length] ++ R ++
    [0x02, UInt8.ofNat S.length] ++ S

theorem IsStrictDERInteger_iff (v : valtype) :
    IsStrictDERInteger v = true ↔ 0 < v.length ∧ v.getD 0 0 &&& 0x80 = 0 ∧
      (1 < v.length → v.getD 0 0 = 0x00 → v.getD 1 0 &&& 0x80 ≠ 0) := by
  match v with
  | [] => simp [IsStrictDERInteger]
  | [b] => simp [IsStrictDERInteger]
  | b :: c :: rest =>
    simp only [IsStrictDERInteger, Bool.and_eq_true, beq_iff_eq, Bool.or_eq_true, bne_iff_ne,
      ne_eq, List.length_cons, List.getD_cons_zero, List.getD_cons_succ]
    constructor
    · rintro ⟨hb, hbc⟩
      exact ⟨by omega, hb, fun _ hb0 => hbc.resolve_left (not_not.mpr hb0)⟩
    · rintro ⟨-, hb, hbc⟩
      refine ⟨hb, ?_⟩
      by_cases hb0 : b = 0
      · exact Or.inr (hbc (by omega) hb0)
      · exact Or.inl hb0

theorem length_DERSignature (R S : valtype) :
    (DERSignature R S).length = R.length + S.length + 6 := by
  simp [DERSignature]
  omega

theorem DERSignature_eq (R S : valtype) :
    DERSignature R S = 0x30 :: UInt8.ofNat (R.length + S.length + 4) :: 0x02 ::
      UInt8.ofNat R.length :: (R ++ 0x02 :: UInt8.ofNat S.length :: S) := by
  simp [DERSignature]

/-- The bytes of `R` sit from index 4 on. -/
theorem getD_DERSignature_R (R S : valtype) {k : Nat} (hk : k < R.length) :
    (DERSignature R S).getD (k + 4) 0 = R.getD k 0 := by
  rw [DERSignature_eq]
  simp only [List.getD_cons_succ]
  exact List.getD_append _ _ _ _ hk

/-- The header of `S` and its bytes follow `R`. -/
theorem getD_DERSignature_S (R S : valtype) (k : Nat) :
    (DERSignature R S).getD (R.length + 4 + k) 0 = (0x02 :: UInt8.ofNat S.length :: S).getD k 0 := by
  rw [DERSignature_eq, show R.length + 4 + k = (R.length + k) + 4 by omega]
  simp only [List.getD_cons_succ]
  rw [List.getD_append_right _ _ _ _ (by omega), Nat.add_sub_cancel_left]

/-! ### Every read is within the signature -/

theorem getElem?_eq_getD {sig : valtype} {i : Nat} (h : i < sig.length) :
    sig[i]? = some (sig.getD i 0) := by
  simp [h]

/-- A guard that rejects alike in the checked reads and in the model. -/
theorem guard_checked {c : Prop} [Decidable c] {X : Option Bool} {Y : Bool}
    (h : ¬c → X = some Y) : (if c then some false else X) = some (if c then false else Y) := by
  by_cases hc : c
  · rw [if_pos hc, if_pos hc]
  · rw [if_neg hc, if_neg hc, h hc]

/-- The check for a null byte before a value, `len > 1 && v0 == 0x00 &&
!(v1 & 0x80)`, whose read `r` of `v1` runs only when the first two operands
hold. -/
theorem nullPrefix_checked {len : Nat} {v0 v1 : UInt8} {r : Option UInt8} {X : Option Bool}
    {Y : Bool} (hr : len > 1 → r = some v1)
    (h : ¬(decide (len > 1) && v0 == 0x00 && !(v1 &&& 0x80 != 0)) = true → X = some Y) :
    ((if (decide (len > 1) && v0 == 0x00) = true then r.map fun b => !(b &&& 0x80 != 0)
      else some false).bind fun b => if b = true then some false else X) =
      some (if (decide (len > 1) && v0 == 0x00 && !(v1 &&& 0x80 != 0)) = true then false else Y) := by
  by_cases hc : (decide (len > 1) && v0 == 0x00) = true
  · have hlen : len > 1 := by
      simp only [Bool.and_eq_true, decide_eq_true_eq] at hc
      exact hc.1
    rw [if_pos hc, hr hlen, Option.map_some, Option.bind_some, hc, Bool.true_and]
    exact guard_checked fun h' => h (by rwa [hc, Bool.true_and])
  · rw [if_neg hc, Option.bind_some, if_neg Bool.false_ne_true]
    have hc' : ¬(decide (len > 1) && v0 == 0x00 && !(v1 &&& 0x80 != 0)) = true := by
      simp only [Bool.and_eq_true] at hc ⊢
      exact fun h' => hc h'.1
    rw [if_neg hc', h hc']

/-- Each length check comes before the reads it protects: the checked reads
never leave the signature, and they answer as the model does. -/
theorem IsValidDERSignatureEncodingChecked_eq (sig : valtype) :
    IsValidDERSignatureEncodingChecked sig = some (IsValidDERSignatureEncoding sig) := by
  unfold IsValidDERSignatureEncodingChecked IsValidDERSignatureEncoding
  by_cases hn : (sig.length < 8 || sig.length > 72) = true
  · simp only [hn, ↓reduceIte]
  have h8 : 8 ≤ sig.length := by simp at hn; omega
  simp only [hn, Bool.false_eq_true, ↓reduceIte, getElem?_eq_getD (show 0 < sig.length by omega),
    getElem?_eq_getD (show 1 < sig.length by omega), getElem?_eq_getD (show 2 < sig.length by omega),
    getElem?_eq_getD (show 3 < sig.length by omega), getElem?_eq_getD (show 4 < sig.length by omega),
    Option.bind_eq_bind, Option.bind_some]
  iterate 5 refine guard_checked fun _ => ?_
  refine guard_checked fun hR => ?_
  -- `lenR <= size - 7`: `sig[5]` and the header of `S` lie within `sig`
  rw [Nat.not_lt] at hR
  refine nullPrefix_checked (fun _ => getElem?_eq_getD (by omega)) fun _ => ?_
  rw [getElem?_eq_getD (by omega), Option.bind_some, getElem?_eq_getD (by omega), Option.bind_some,
    getElem?_eq_getD (by omega), Option.bind_some]
  iterate 3 refine guard_checked fun _ => ?_
  refine guard_checked fun hS => ?_
  -- `startS + lenS + 2 = size`: the second byte of `S` lies within `sig`
  simp only [bne_iff_ne, ne_eq, Decidable.not_not] at hS
  exact nullPrefix_checked (fun _ => getElem?_eq_getD (by omega)) fun _ => rfl

/-! ### What the check accepts -/

theorem guard_eq_true {c : Prop} [Decidable c] {Y : Bool} :
    (if c then false else Y) = true ↔ ¬c ∧ Y = true := by
  by_cases hc : c
  · simp [hc]
  · simp [hc]

/-- A signature of the grammar passes every check. -/
theorem IsValidDERSignatureEncoding_DERSignature {R S : valtype} (hlen : R.length + S.length + 6 ≤ 72)
    (hR : IsStrictDERInteger R = true) (hS : IsStrictDERInteger S = true) :
    IsValidDERSignatureEncoding (DERSignature R S) = true := by
  rw [IsStrictDERInteger_iff] at hR hS
  obtain ⟨hR1, hR2, hR3⟩ := hR
  obtain ⟨hS1, hS2, hS3⟩ := hS
  have hRlen : (UInt8.ofNat R.length).toNat = R.length := by
    rw [UInt8.toNat_ofNat']; omega
  have hSlen : (UInt8.ofNat S.length).toNat = S.length := by
    rw [UInt8.toNat_ofNat']; omega
  have hL : (UInt8.ofNat (R.length + S.length + 4)).toNat = R.length + S.length + 4 := by
    rw [UInt8.toNat_ofNat']; omega
  -- the bytes the checks read
  have h0 : (DERSignature R S).getD 0 0 = 0x30 := by rw [DERSignature_eq]; rfl
  have h1 : (DERSignature R S).getD 1 0 = UInt8.ofNat (R.length + S.length + 4) := by
    rw [DERSignature_eq]; rfl
  have h2 : (DERSignature R S).getD 2 0 = 0x02 := by rw [DERSignature_eq]; rfl
  have h3 : (DERSignature R S).getD 3 0 = UInt8.ofNat R.length := by rw [DERSignature_eq]; rfl
  have h4 := getD_DERSignature_R R S (k := 0) hR1
  have h5 := getD_DERSignature_S R S 0
  have h6 := getD_DERSignature_S R S 1
  have h7 := getD_DERSignature_S R S 2
  have h8 := getD_DERSignature_S R S 3
  simp only [IsValidDERSignatureEncoding, guard_eq_true, length_DERSignature, h0, h1, h2, h3,
    hRlen, hL, h4, h5, h6, h7, h8, List.getD_cons_zero, List.getD_cons_succ, hSlen]
  refine ⟨?_, by decide, ?_, by decide, ?_, by simpa using hR2, by omega, ?_, by decide, ?_,
    by simpa using hS2, ?_, ?_, trivial⟩
  · simp only [Bool.or_eq_true, decide_eq_true_eq]
    omega
  · simp only [bne_iff_ne, ne_eq, Decidable.not_not]
    omega
  · simp only [beq_iff_eq]
    omega
  · -- the second byte of `R` is read only when `R` has one
    simp only [Bool.and_eq_true, decide_eq_true_eq, beq_iff_eq, Bool.not_eq_true',
      bne_eq_false_iff_eq, not_and]
    intro ⟨hR1', hR0⟩ h5
    rw [show 5 = 1 + 4 from rfl, getD_DERSignature_R R S hR1'] at h5
    exact hR3 hR1' hR0 h5
  · simp only [beq_iff_eq]
    omega
  · simp only [bne_iff_ne, ne_eq, Decidable.not_not]
    omega
  · simp only [Bool.and_eq_true, decide_eq_true_eq, beq_iff_eq, Bool.not_eq_true',
      bne_eq_false_iff_eq, not_and]
    intro ⟨hS1', hS0⟩
    exact hS3 hS1' hS0

/-- What passes every check is a signature of the grammar: `R` runs from index 4
for `lenR` bytes, and `S` from after its header to the end. -/
theorem DERSignature_of_IsValidDERSignatureEncoding {sig : valtype}
    (h : IsValidDERSignatureEncoding sig = true) :
    8 ≤ sig.length ∧ sig.length ≤ 72 ∧ ∃ R S, sig = DERSignature R S ∧
      IsStrictDERInteger R = true ∧ IsStrictDERInteger S = true := by
  simp only [IsValidDERSignatureEncoding, guard_eq_true] at h
  obtain ⟨hn, h0, h1, h2, h3, h4, hR, hR0, hS, h5, h6, h7, h8, -⟩ := h
  simp only [Bool.or_eq_true, decide_eq_true_eq, bne_iff_ne, ne_eq, Decidable.not_not, beq_iff_eq,
    not_or, Nat.not_lt, Bool.and_eq_true, not_and, Bool.not_eq_true', bne_eq_false_iff_eq]
    at hn h0 h1 h2 h3 h4 hR hR0 hS h5 h6 h7 h8
  rcases sig with _ | ⟨b0, _ | ⟨b1, _ | ⟨b2, _ | ⟨b3, rest⟩⟩⟩⟩
  all_goals try (simp at hn; done)
  simp only [List.getD_cons_zero, List.getD_cons_succ, List.length_cons] at *
  -- `R` runs up to the header of `S`, and `S` to the end
  obtain ⟨R, c0, c1, S, rfl, hRlen⟩ :
      ∃ R c0 c1 S, rest = R ++ c0 :: c1 :: S ∧ R.length = b3.toNat := by
    refine ⟨rest.take b3.toNat, rest[b3.toNat], rest[b3.toNat + 1], rest.drop (b3.toNat + 2), ?_,
      by simp; omega⟩
    conv_lhs => rw [← List.take_append_drop b3.toNat rest, List.drop_eq_getElem_cons (by omega),
      List.drop_eq_getElem_cons (by omega)]
  rw [← hRlen] at hR hR0 hS h5 h6 h7 h8
  simp only [List.length_append, List.length_cons] at hn h1 hR h7
  have hR1 : 0 < R.length := by omega
  rw [List.getD_append _ _ _ _ hR1] at h4
  rw [List.getD_append_right _ _ _ _ (Nat.le_refl _), Nat.sub_self, List.getD_cons_zero] at hS
  simp only [List.getD_append_right _ _ _ _ (Nat.le_add_right _ _), Nat.add_sub_cancel_left,
    List.getD_cons_succ, List.getD_cons_zero] at h5 h6 h7 h8
  have hR0' : 1 < R.length → R.getD 0 0 = 0x00 → R.getD 1 0 &&& 0x80 ≠ 0 := by
    intro hR2 hRz
    rw [List.getD_append _ _ _ _ hR1, List.getD_append _ _ _ _ hR2] at hR0
    exact hR0 ⟨hR2, hRz⟩
  -- the length bytes are the lengths they announce
  have hb1 : b1 = UInt8.ofNat (R.length + S.length + 4) := by
    have hlen : b1.toNat = R.length + S.length + 4 := by omega
    rw [← UInt8.ofNat_toNat (x := b1), hlen]
  have hb3 : b3 = UInt8.ofNat R.length := by rw [hRlen, UInt8.ofNat_toNat]
  have hc1 : c1 = UInt8.ofNat S.length := by
    have hlen : c1.toNat = S.length := by omega
    rw [← UInt8.ofNat_toNat (x := c1), hlen]
  refine ⟨by simp; omega, by simp; omega, R, S, ?_, (IsStrictDERInteger_iff R).mpr ⟨hR1, h4, hR0'⟩,
    (IsStrictDERInteger_iff S).mpr ⟨by omega, h6, fun _ hSz => h8 ⟨by omega, hSz⟩⟩⟩
  rw [DERSignature_eq, h0, hb1, h2, hb3, hS, hc1]

/-- `IsValidDERSignatureEncoding` accepts exactly the strict DER signatures of
at most 72 bytes, and every byte it reads lies within the signature. -/
theorem IsValidDERSignatureEncoding_strictDER (sig : valtype) :
    (IsValidDERSignatureEncoding sig = true ↔ 8 ≤ sig.length ∧ sig.length ≤ 72 ∧
      ∃ R S, sig = DERSignature R S ∧ IsStrictDERInteger R = true ∧ IsStrictDERInteger S = true) ∧
    IsValidDERSignatureEncodingChecked sig = some (IsValidDERSignatureEncoding sig) := by
  refine ⟨⟨DERSignature_of_IsValidDERSignatureEncoding, ?_⟩, IsValidDERSignatureEncodingChecked_eq sig⟩
  rintro ⟨-, h72, R, S, rfl, hR, hS⟩
  rw [length_DERSignature] at h72
  exact IsValidDERSignatureEncoding_DERSignature h72 hR hS

end Script

end BitcoinAbc
