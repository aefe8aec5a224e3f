import Mathlib
import BitcoinAbc.Coins.Compressor
import BitcoinAbc.Script.Standard
import BitcoinAbc.Serialize.Integers

/-!
# Compressed outputs (compressor.h, compressor.cpp)

The coins database stores an output as its compressed amount, a varint,
followed by its script. Six scripts have a short form: P2PKH and P2SH are
the tag `0` or `1` and the 20-byte hash, a P2PK script the tag `2` to `5` and
the 32 bytes of the key's x coordinate, the tag carrying the first byte of a
compressed key or the parity of `y` for an uncompressed one. Every other
script is written as the varint `size + nSpecialScripts` and its bytes, so a
tag below `nSpecialScripts` is never the length of a script.

- `PubKeyOps`: the two operations of `CPubKey` the format uses, kept
  abstract; `DecompressInverts` is the property of secp256k1 decompression
  the round trip rests on;
- `CompressScript_spec`: a script with a short form is rebuilt from it by
  `DecompressScript`;
- `ScriptCompression_roundtrip`, `TxOutCompression_Unser_Ser`: reading back
  what is written gives the script and the output, whatever the reader held
  before, with the stream after them untouched.
-/

namespace BitcoinAbc

namespace Compressor

open Script Serialize

/-- The operations of `CPubKey` that script compression calls:
`IsFullyValid` of a 65-byte key and `Decompress` of a 33-byte one. On
success `Decompress` serializes the point uncompressed, into 65 bytes, which
is the `assert(pubkey.size() == 65)` of `DecompressScript`. -/
structure PubKeyOps where
  IsFullyValid : List UInt8 → Bool
  Decompress : List UInt8 → Option (List UInt8)
  decompress_size : ∀ {vch key : List UInt8}, Decompress vch = some key → key.length = 65

/-- `Decompress` inverts point compression on the keys `IsFullyValid`
accepts: the key is rebuilt from the parity of `y` and the 32 bytes of `x`. -/
def PubKeyOps.DecompressInverts (K : PubKeyOps) : Prop :=
  ∀ key : List UInt8, key.length = 65 → key.getD 0 0 = 0x04 → K.IsFullyValid key = true →
    K.Decompress ((2 + (key.getD 64 0 &&& 0x01)) :: (key.drop 1).take 32) = some key

/-- `ScriptCompression::nSpecialScripts`. -/
def nSpecialScripts : Nat := 6

/-- `IsToKeyID(script, hash)`: the hash, where it returns `true`. -/
def IsToKeyID (script : CScript) : Option (List UInt8) :=
  if script.length = 25 ∧ script.getD 0 0 = OP_DUP_BYTE ∧ script.getD 1 0 = OP_HASH160_BYTE ∧
      script.getD 2 0 = 20 ∧ script.getD 23 0 = OP_EQUALVERIFY_BYTE ∧ script.getD 24 0 = OP_CHECKSIG_BYTE then
    some ((script.drop 3).take 20)
  else none

/-- `IsToScriptID(script, hash)`. -/
def IsToScriptID (script : CScript) : Option (List UInt8) :=
  if script.length = 23 ∧ script.getD 0 0 = OP_HASH160_BYTE ∧ script.getD 1 0 = 20 ∧
      script.getD 22 0 = OP_EQUAL_BYTE then
    some ((script.drop 2).take 20)
  else none

/-- `IsToPubKey(script, pubkey)`: a compressed key, or an uncompressed one
that is fully valid. -/
def IsToPubKey (K : PubKeyOps) (script : CScript) : Option (List UInt8) :=
  if script.length = 35 ∧ script.getD 0 0 = 33 ∧ script.getD 34 0 = OP_CHECKSIG_BYTE ∧
      (script.getD 1 0 = 0x02 ∨ script.getD 1 0 = 0x03) then
    some ((script.drop 1).take 33)
  else if script.length = 67 ∧ script.getD 0 0 = 65 ∧ script.getD 66 0 = OP_CHECKSIG_BYTE ∧
      script.getD 1 0 = 0x04 then
    let pubkey := (script.drop 1).take 65
    -- if not fully valid, a case that would not be compressible
    if K.IsFullyValid pubkey then some pubkey else none
  else none

/-- `CompressScript(script, out)`: the short form, where it returns `true`. -/
def CompressScript (K : PubKeyOps) (script : CScript) : Option (List UInt8) :=
  match IsToKeyID script with
  | some keyID => some (0x00 :: keyID)
  | none =>
    match IsToScriptID script with
    | some scriptID => some (0x01 :: scriptID)
    | none =>
      match IsToPubKey K script with
      | some pubkey =>
        if pubkey.getD 0 0 = 0x02 ∨ pubkey.getD 0 0 = 0x03 then some (pubkey.getD 0 0 :: (pubkey.drop 1).take 32)
        else if pubkey.getD 0 0 = 0x04 then
          some ((0x04 ||| (pubkey.getD 64 0 &&& 0x01)) :: (pubkey.drop 1).take 32)
        else none
      | none => none

/-- `GetSpecialScriptSize(nSize)`. -/
def GetSpecialScriptSize (nSize : Nat) : Nat :=
  if nSize = 0 ∨ nSize = 1 then 20
  else if nSize = 2 ∨ nSize = 3 ∨ nSize = 4 ∨ nSize = 5 then 32
  else 0

/-- `DecompressScript(script, nSize, in)`: the script rebuilt from the short
form, where it returns `true`; elsewhere `script` is left as it was. -/
def DecompressScript (K : PubKeyOps) (nSize : Nat) (input : List UInt8) : Option CScript :=
  match nSize with
  | 0x00 => some ([OP_DUP_BYTE, OP_HASH160_BYTE, 20] ++ input.take 20 ++ [OP_EQUALVERIFY_BYTE, OP_CHECKSIG_BYTE])
  | 0x01 => some ([OP_HASH160_BYTE, 20] ++ input.take 20 ++ [OP_EQUAL_BYTE])
  | 0x02 | 0x03 => some ([33, UInt8.ofNat nSize] ++ input.take 32 ++ [OP_CHECKSIG_BYTE])
  | 0x04 | 0x05 =>
    let vch := UInt8.ofNat (nSize - 2) :: input.take 32
    match K.Decompress vch with
    | none => none
    | some pubkey => some ([65] ++ pubkey ++ [OP_CHECKSIG_BYTE])
  | _ => none

/-- `CDataStream::ignore(nSize)`. -/
def ignore (nSize : Int) (s : List UInt8) : Except String (List UInt8) :=
  if nSize < 0 then throw "CDataStream::ignore(): nSize negative"
  else if s.length < nSize.toNat then throw "CDataStream::ignore(): end of data"
  else return s.drop nSize.toNat

/-- `ScriptCompression::Ser(s, script)`. -/
def ScriptCompression.Ser (K : PubKeyOps) (script : CScript) : List UInt8 :=
  match CompressScript K script with
  | some compr => compr
  | none =>
    let nSize := BitVec.ofNat 32 (script.length + nSpecialScripts)
    WriteVarInt nSize ++ script

/-- `ScriptCompression::Unser(s, script)`, on the script `script` held
before. The `int` that `ignore` takes is the `unsigned int` read as two's
complement. -/
def ScriptCompression.Unser (K : PubKeyOps) (script : CScript) (s : List UInt8) :
    Except String (CScript × List UInt8) := do
  let (nSize, s) ← ReadVarInt (w := 32) s
  let nSize := nSize.toNat
  if nSize < nSpecialScripts then
    let (vch, s) ← read (GetSpecialScriptSize nSize) s
    return ((DecompressScript K nSize vch).getD script, s)
  let nSize := nSize - nSpecialScripts
  if nSize > MAX_SCRIPT_SIZE then
    -- overly long script, replace with a short invalid one
    let s ← ignore (BitVec.ofNat 32 nSize).toInt s
    return (script ++ [OP_RETURN_BYTE], s)
  else
    read nSize s

/-- `AmountCompression::Ser(s, val)`; `none` where `CompressAmount` asserts. -/
def AmountCompression.Ser (val : Amount) : Option (List UInt8) := do
  let x ← CompressAmount val
  return WriteVarInt x.toBitVec

/-- `AmountCompression::Unser(s, val)`. -/
def AmountCompression.Unser (s : List UInt8) : Except String (Amount × List UInt8) := do
  let (v, s) ← ReadVarInt (w := 64) s
  return (DecompressAmount (UInt64.ofBitVec v), s)

/-- `TxOutCompression` writing `obj`: its amount, then its script. -/
def TxOutCompression.Ser (K : PubKeyOps) (obj : CTxOut) : Option (List UInt8) := do
  let amount ← AmountCompression.Ser obj.nValue
  return amount ++ ScriptCompression.Ser K obj.scriptPubKey

/-- `TxOutCompression` reading into `obj`. -/
def TxOutCompression.Unser (K : PubKeyOps) (obj : CTxOut) (s : List UInt8) :
    Except String (CTxOut × List UInt8) := do
  let (nValue, s) ← AmountCompression.Unser s
  let (scriptPubKey, s) ← ScriptCompression.Unser K obj.scriptPubKey s
  return (⟨nValue, scriptPubKey⟩, s)

/-- Reading as many bytes as `pre` holds takes `pre` off the front. -/
theorem read_append (pre rest : List UInt8) : read pre.length (pre ++ rest) = .ok (pre, rest) := by
  unfold Serialize.read
  rw [if_pos (by simp), List.take_left' rfl, List.drop_left' rfl]

/-- A byte below `128` is a varint of one digit. -/
theorem ReadVarInt_byte {b : UInt8} (hb : b.toNat < 128) (rest : List UInt8) :
    ReadVarInt (w := 32) (b :: rest) = .ok (BitVec.ofNat 32 b.toNat, rest) := by
  have hval : varIntValue 0 (b :: rest) = some (b.toNat, rest) := by
    rw [varIntValue, if_pos hb, Nat.zero_mul, Nat.zero_add]
  rw [ReadVarInt, readVarIntLoop_eq_ok (by decide), BitVec.toNat_ofNat, Nat.mod_eq_of_lt (by omega)]
  exact hval

/-- The last of `n + 1` elements, read with `getD`. -/
theorem getLast?_of_getD {s : List UInt8} {n : Nat} {x : UInt8} (hlen : s.length = n + 1) (h : s.getD n 0 = x) :
    s.getLast? = some x := by
  have hn : n < s.length := by omega
  rw [List.getD_eq_getElem?_getD, List.getElem?_eq_getElem hn, Option.getD_some] at h
  rw [List.getLast?_eq_getElem?, hlen, Nat.add_sub_cancel, List.getElem?_eq_getElem hn, h]

/-- `IsToKeyID` tests what `MatchPayToPubkeyHash` tests. -/
theorem IsToKeyID_eq : IsToKeyID = MatchPayToPubkeyHash := rfl

/-- A P2SH script: `OP_HASH160`, the 20 bytes pushed, `OP_EQUAL`. -/
theorem IsToScriptID_sound {script : CScript} {hash : List UInt8} (h : IsToScriptID script = some hash) :
    hash.length = 20 ∧ script = OP_HASH160_BYTE :: directPush hash ++ [OP_EQUAL_BYTE] := by
  unfold IsToScriptID at h
  split at h
  · rename_i hc
    obtain rfl := Option.some.inj h
    have hp2sh : IsPayToScriptHash script = true := by
      obtain ⟨h23, h0, h1, h22⟩ := hc
      rw [IsPayToScriptHash, h23, h0, h1, h22]
      rfl
    obtain ⟨hash, hlen, hs, htake⟩ := IsPayToScriptHash_sound hp2sh
    rw [htake]
    exact ⟨hlen, hs⟩
  · cases h

/-- The first byte of a key copied from `script[1]` on. -/
theorem getD_take_drop_one (s : List UInt8) {n : Nat} (hn : 0 < n) : ((s.drop 1).take n).getD 0 0 = s.getD 1 0 := by
  simp [List.getD_eq_getElem?_getD, hn]

/-- A P2PK script: a push of a compressed key, or of an uncompressed one that
is fully valid, then `OP_CHECKSIG`. -/
theorem IsToPubKey_sound {K : PubKeyOps} {script key : List UInt8} (h : IsToPubKey K script = some key) :
    script = directPush key ++ [OP_CHECKSIG_BYTE] ∧
      ((key.length = 33 ∧ (key.getD 0 0 = 0x02 ∨ key.getD 0 0 = 0x03)) ∨
        (key.length = 65 ∧ key.getD 0 0 = 0x04 ∧ K.IsFullyValid key = true)) := by
  unfold IsToPubKey at h
  split at h
  · rename_i hc
    obtain ⟨hlen, h0, hlast, h1⟩ := hc
    obtain rfl := Option.some.inj h
    refine ⟨pubkey_shape hlen (by rw [h0]; rfl) (getLast?_of_getD hlen hlast), Or.inl ⟨by simp [hlen], ?_⟩⟩
    rw [getD_take_drop_one script (by decide)]
    exact h1
  · split at h
    · rename_i hc
      obtain ⟨hlen, h0, hlast, h1⟩ := hc
      dsimp only at h
      split at h
      · rename_i hvalid
        obtain rfl := Option.some.inj h
        refine ⟨pubkey_shape hlen (by rw [h0]; rfl) (getLast?_of_getD hlen hlast),
          Or.inr ⟨by simp [hlen], ?_, hvalid⟩⟩
        rw [getD_take_drop_one script (by decide)]
        exact h1
      · cases h
    · cases h

/-- The parity bit of a byte. -/
theorem and_one_cases (b : UInt8) : b &&& 0x01 = 0 ∨ b &&& 0x01 = 1 := by
  have hlow : (b &&& 0x01).toNat = b.toNat % 2 := by
    rw [UInt8.toNat_and, UInt8.toNat_ofNat, Nat.and_one_is_mod]
  rcases Nat.mod_two_eq_zero_or_one b.toNat with h | h
  · exact Or.inl (UInt8.toNat_inj.mp (by rw [hlow, h]; rfl))
  · exact Or.inr (UInt8.toNat_inj.mp (by rw [hlow, h]; rfl))

/-- The script of a compressed key, rebuilt from its first byte and `x`. -/
theorem DecompressScript_compressed (K : PubKeyOps) {key : List UInt8} (hlen : key.length = 33)
    (h23 : key.getD 0 0 = 0x02 ∨ key.getD 0 0 = 0x03) :
    DecompressScript K (key.getD 0 0).toNat ((key.drop 1).take 32) = some (directPush key ++ [OP_CHECKSIG_BYTE]) := by
  match key, hlen with
  | k0 :: ks, hlen =>
    have hks : ks.length = 32 := by simpa using hlen
    rw [List.getD_cons_zero] at h23 ⊢
    rw [List.drop_one, List.tail_cons, List.take_of_length_le (by omega)]
    rcases h23 with rfl | rfl <;> simp [DecompressScript, directPush, hks]

/-- The script of an uncompressed key, rebuilt from the parity of `y` and
`x` by `Decompress`. -/
theorem DecompressScript_uncompressed {K : PubKeyOps} (hK : K.DecompressInverts) {key : List UInt8}
    (hlen : key.length = 65) (h4 : key.getD 0 0 = 0x04) (hvalid : K.IsFullyValid key = true) :
    DecompressScript K (0x04 ||| (key.getD 64 0 &&& 0x01)).toNat ((key.drop 1).take 32) =
      some (directPush key ++ [OP_CHECKSIG_BYTE]) := by
  have hinv := hK key hlen h4 hvalid
  have hpush : directPush key = 65 :: key := by rw [directPush, hlen]; rfl
  have htake : ((key.drop 1).take 32).take 32 = (key.drop 1).take 32 := by rw [List.take_take, Nat.min_self]
  rcases and_one_cases (key.getD 64 0) with hp | hp
  · rw [hp] at hinv
    rw [hp, show ((0x04 : UInt8) ||| 0).toNat = 4 from rfl]
    simp only [DecompressScript, htake]
    rw [show UInt8.ofNat (4 - 2) = 2 + 0 from rfl, hinv, hpush]
    rfl
  · rw [hp] at hinv
    rw [hp, show ((0x04 : UInt8) ||| 1).toNat = 5 from rfl]
    simp only [DecompressScript, htake]
    rw [show UInt8.ofNat (5 - 2) = 2 + 1 from rfl, hinv, hpush]
    rfl

/-- A script with a short form is rebuilt from it: the tag is below
`nSpecialScripts`, and `DecompressScript` reads the bytes after it back. -/
theorem CompressScript_spec {K : PubKeyOps} (hK : K.DecompressInverts) {script compr : CScript}
    (h : CompressScript K script = some compr) :
    ∃ tag payload, compr = tag :: payload ∧ tag.toNat < nSpecialScripts ∧
      payload.length = GetSpecialScriptSize tag.toNat ∧ DecompressScript K tag.toNat payload = some script := by
  unfold CompressScript at h
  cases hkey : IsToKeyID script with
  | some keyID =>
    rw [hkey] at h
    obtain rfl := Option.some.inj h
    obtain ⟨hlen, rfl⟩ := MatchPayToPubkeyHash_sound (IsToKeyID_eq ▸ hkey)
    refine ⟨0x00, keyID, rfl, by decide, by rw [hlen]; rfl, ?_⟩
    simp [DecompressScript, directPush, hlen]
  | none =>
    rw [hkey] at h
    cases hsid : IsToScriptID script with
    | some scriptID =>
      rw [hsid] at h
      obtain rfl := Option.some.inj h
      obtain ⟨hlen, rfl⟩ := IsToScriptID_sound hsid
      refine ⟨0x01, scriptID, rfl, by decide, by rw [hlen]; rfl, ?_⟩
      simp [DecompressScript, directPush, hlen]
    | none =>
      rw [hsid] at h
      cases hpk : IsToPubKey K script with
      | none =>
        rw [hpk] at h
        cases h
      | some key =>
        rw [hpk] at h
        obtain ⟨rfl, hshape⟩ := IsToPubKey_sound hpk
        dsimp only at h
        rcases hshape with ⟨hlen, h23⟩ | ⟨hlen, h4, hvalid⟩
        · rw [if_pos h23] at h
          obtain rfl := Option.some.inj h
          refine ⟨_, _, rfl, ?_, ?_, DecompressScript_compressed K hlen h23⟩
          · rcases h23 with h | h <;> rw [h] <;> decide
          · rcases h23 with h | h <;> rw [h] <;> simp [hlen, GetSpecialScriptSize]
        · rw [if_neg (by rw [h4]; decide), if_pos h4] at h
          obtain rfl := Option.some.inj h
          refine ⟨_, _, rfl, ?_, ?_, DecompressScript_uncompressed hK hlen h4 hvalid⟩
          · rcases and_one_cases (key.getD 64 0) with h | h <;> rw [h] <;> decide
          · rcases and_one_cases (key.getD 64 0) with h | h <;> rw [h] <;> simp [hlen, GetSpecialScriptSize]

section RoundTrip

variable {K : PubKeyOps}

/-- A script of at most `MAX_SCRIPT_SIZE` bytes is read back from what
`ScriptCompression::Ser` writes, whatever script the reader held. -/
theorem ScriptCompression_roundtrip (hK : K.DecompressInverts) {script : CScript}
    (hsize : script.length ≤ MAX_SCRIPT_SIZE) (old : CScript) (rest : List UInt8) :
    ScriptCompression.Unser K old (ScriptCompression.Ser K script ++ rest) = .ok (script, rest) := by
  unfold ScriptCompression.Ser
  cases hc : CompressScript K script with
  | some compr =>
    -- a tag below `nSpecialScripts`, a varint of one byte, and its fixed-size payload
    obtain ⟨tag, payload, rfl, htag, hlen, hdec⟩ := CompressScript_spec hK hc
    have htag' : (BitVec.ofNat 32 tag.toNat).toNat = tag.toNat := by
      rw [BitVec.toNat_ofNat, Nat.mod_eq_of_lt (by unfold nSpecialScripts at htag; omega)]
    dsimp only
    rw [ScriptCompression.Unser, List.cons_append, ReadVarInt_byte (by unfold nSpecialScripts at htag; omega)]
    simp only [Except.bind, bind, htag', if_pos htag, ← hlen, read_append, hdec, Option.getD_some]
    rfl
  | none =>
    -- the varint `size + nSpecialScripts`, then the bytes of the script
    have hsize' : (BitVec.ofNat 32 (script.length + nSpecialScripts)).toNat = script.length + nSpecialScripts := by
      rw [BitVec.toNat_ofNat, Nat.mod_eq_of_lt (by unfold nSpecialScripts MAX_SCRIPT_SIZE at *; omega)]
    dsimp only
    rw [ScriptCompression.Unser, List.append_assoc, ReadVarInt_write (by decide)]
    simp only [Except.bind, bind, hsize', Nat.add_sub_cancel, if_neg (Nat.not_lt.mpr (Nat.le_add_left _ _)),
      if_neg (Nat.not_lt.mpr hsize), read_append]

/-- An output with an amount in `MoneyRange` and a script of at most
`MAX_SCRIPT_SIZE` bytes is read back from what `TxOutCompression` writes,
into any output. -/
theorem TxOutCompression_Unser_Ser (hK : K.DecompressInverts) {out : CTxOut} (h0 : 0 ≤ out.nValue.amount)
    (hmax : out.nValue.amount ≤ MAX_MONEY.amount) (hsize : out.scriptPubKey.length ≤ MAX_SCRIPT_SIZE)
    (obj : CTxOut) (rest : List UInt8) :
    ∃ bytes, TxOutCompression.Ser K out = some bytes ∧
      TxOutCompression.Unser K obj (bytes ++ rest) = .ok (out, rest) := by
  obtain ⟨x, hcomp, hdecomp⟩ := DecompressAmount_CompressAmount h0 hmax
  refine ⟨WriteVarInt x.toBitVec ++ ScriptCompression.Ser K out.scriptPubKey, ?_, ?_⟩
  · simp only [TxOutCompression.Ser, AmountCompression.Ser, hcomp]
    rfl
  · -- the amount, then the script, each read back by its own round trip
    rw [TxOutCompression.Unser, AmountCompression.Unser, List.append_assoc, ReadVarInt_write (by decide)]
    simp only [Except.bind, bind, pure, Except.pure, UInt64.ofBitVec_toBitVec, hdecomp,
      ScriptCompression_roundtrip hK hsize]

end RoundTrip

/-- Compressed outputs round-trip: an output with an amount in `MoneyRange`
and a script of at most `MAX_SCRIPT_SIZE` bytes is read back, into a fresh
`CTxOut`, from what `TxOutCompression` writes, provided `Decompress` inverts
point compression. -/
theorem compressedTxOut_roundtrip (K : PubKeyOps) (hK : K.DecompressInverts) (out : CTxOut)
    (hvalue : 0 ≤ out.nValue.amount ∧ out.nValue.amount ≤ MAX_MONEY.amount)
    (hsize : out.scriptPubKey.length ≤ MAX_SCRIPT_SIZE) (rest : List UInt8) :
    ∃ bytes, TxOutCompression.Ser K out = some bytes ∧
      TxOutCompression.Unser K CTxOut.null (bytes ++ rest) = .ok (out, rest) :=
  TxOutCompression_Unser_Ser hK hvalue.1 hvalue.2 hsize CTxOut.null rest

/-- The operations of a `CPubKey` that accepts no uncompressed key. -/
def PubKeyOps.noUncompressed : PubKeyOps where
  IsFullyValid _ := false
  Decompress _ := none
  decompress_size h := by cases h

theorem PubKeyOps.noUncompressed_inverts : PubKeyOps.noUncompressed.DecompressInverts :=
  fun _ _ _ h => by cases h

theorem compressedTxOut_roundtrip_p2pkh :
    ∃ bytes, TxOutCompression.Ser PubKeyOps.noUncompressed ⟨⟨5000⟩, [OP_DUP_BYTE, OP_HASH160_BYTE, 20] ++
        List.replicate 20 7 ++ [OP_EQUALVERIFY_BYTE, OP_CHECKSIG_BYTE]⟩ = some bytes ∧
      TxOutCompression.Unser PubKeyOps.noUncompressed CTxOut.null bytes = .ok (⟨⟨5000⟩, [OP_DUP_BYTE,
        OP_HASH160_BYTE, 20] ++ List.replicate 20 7 ++ [OP_EQUALVERIFY_BYTE, OP_CHECKSIG_BYTE]⟩, []) := by
  have h := compressedTxOut_roundtrip PubKeyOps.noUncompressed PubKeyOps.noUncompressed_inverts
    ⟨⟨5000⟩, [OP_DUP_BYTE, OP_HASH160_BYTE, 20] ++ List.replicate 20 7 ++
      [OP_EQUALVERIFY_BYTE, OP_CHECKSIG_BYTE]⟩
    ⟨by decide, by decide⟩ (by decide) []
  simpa only [List.append_nil] using h

end Compressor

end BitcoinAbc
