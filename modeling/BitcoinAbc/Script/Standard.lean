import Mathlib
import BitcoinAbc.Script.SigHash

/-!
# Standard output templates (script/standard.cpp)

`Solver` sorts an output script into one of the five standard templates, or
`NONSTANDARD`, and returns the template's data: the hash of a P2SH or P2PKH
script, the key of a P2PK script, or the number of signatures required, the
keys and their number of a bare multisig script. The fixed templates are
matched on raw bytes; the multisig template is read op by op with
`GetScriptOp`, its key loop stopping at the first push that is not a key.

`Template` says what the templates are, as the scripts they are: a direct push
of each hash or key, `OP_m` and `OP_n` for the multisig counts. The relay
policy's `IsStandard` reads its answer off the template `Solver` finds.

- `Solver_of_Template`: on a script of a template, `Solver` returns that
  template's type and data;
- `Solver_cases`: every answer of `Solver` is a template with its data, or
  `NONSTANDARD` with none;
- `Solver_eq_ok`: `Solver` never reaches an `assert`;
- `ExtractDestination_GetScriptForDestination` and
  `Solver_GetScriptForMultisig`: the scripts the wallet builds are read back;
- `Solver_classifies_templates`: all of it together, `Solver` exact on every
  script.
-/

namespace BitcoinAbc

namespace Script

/-- The opcodes of the standard templates. -/
def OP_DUP_BYTE : UInt8 := 0x76
def OP_EQUALVERIFY_BYTE : UInt8 := 0x88
def OP_CHECKSIG_BYTE : UInt8 := 0xac
def OP_CHECKMULTISIG_BYTE : UInt8 := 0xae
def OP_INVALIDOPCODE : UInt8 := 0xff

namespace CPubKey

def SIZE : Nat := 65
def COMPRESSED_SIZE : Nat := 33

/-- `CPubKey::GetLen(chHeader)`: the length of a key that starts with
`chHeader`, `0` for a byte that starts no key. -/
def GetLen (chHeader : UInt8) : Nat :=
  if chHeader = 2 ∨ chHeader = 3 then COMPRESSED_SIZE
  else if chHeader = 4 ∨ chHeader = 6 ∨ chHeader = 7 then SIZE
  else 0

/-- `CPubKey::ValidSize(vch)`: the first byte announces the length `vch` has. -/
def ValidSize (vch : valtype) : Bool := vch.length > 0 && GetLen (vch.getD 0 0) == vch.length

end CPubKey

/-- `TxoutType`. -/
inductive TxoutType where
  | NONSTANDARD | PUBKEY | PUBKEYHASH | SCRIPTHASH | MULTISIG | NULL_DATA
  deriving DecidableEq, Repr

/-- `MatchPayToPubkey(script, pubkey)`: the key, where it returns `true`. -/
def MatchPayToPubkey (script : CScript) : Option valtype :=
  if script.length = CPubKey.SIZE + 2 ∧ (script.getD 0 0).toNat = CPubKey.SIZE ∧
      script.getLast? = some OP_CHECKSIG_BYTE then
    let pubkey := (script.drop 1).take CPubKey.SIZE
    if CPubKey.ValidSize pubkey then some pubkey else none
  else if script.length = CPubKey.COMPRESSED_SIZE + 2 ∧
      (script.getD 0 0).toNat = CPubKey.COMPRESSED_SIZE ∧ script.getLast? = some OP_CHECKSIG_BYTE then
    let pubkey := (script.drop 1).take CPubKey.COMPRESSED_SIZE
    if CPubKey.ValidSize pubkey then some pubkey else none
  else none

/-- `MatchPayToPubkeyHash(script, pubkeyhash)`: the hash, where it returns
`true`. -/
def MatchPayToPubkeyHash (script : CScript) : Option valtype :=
  if script.length = 25 ∧ script.getD 0 0 = OP_DUP_BYTE ∧ script.getD 1 0 = OP_HASH160_BYTE ∧
      script.getD 2 0 = 20 ∧ script.getD 23 0 = OP_EQUALVERIFY_BYTE ∧ script.getD 24 0 = OP_CHECKSIG_BYTE then
    some ((script.drop 3).take 20)
  else none

/-- `IsSmallInteger(opcode)`: `OP_1` to `OP_16`. -/
def IsSmallInteger (opcode : UInt8) : Bool := decide (OP_1_BYTE ≤ opcode) && decide (opcode ≤ OP_16_BYTE)

/-- `CScript::DecodeOP_N(opcode)` on `OP_0` and the small integers. Its assert
that the opcode is one of them holds at both calls, which follow an
`IsSmallInteger` test. -/
def DecodeOP_N (opcode : UInt8) : Nat :=
  if opcode = OP_0 then 0 else opcode.toNat - (OP_1_BYTE.toNat - 1)

/-- `CScript::EncodeOP_N(n)`, with its assert. -/
def EncodeOP_N (n : Int) : Except Thrown UInt8 := do
  assert (decide (0 ≤ n) && decide (n ≤ 16))
  if n = 0 then return OP_0
  return (OP_1_BYTE.toNat + n.toNat - 1).toUInt8

/-- The key loop of `MatchMultisig`, `while (script.GetOp(it, opcode, data) &&
CPubKey::ValidSize(data))`, from `it` on: the keys read, the opcode the loop
stopped at and the bytes after it, or `none` where the loop returns `false` on
a key that is not pushed minimally. Where `GetOp` fails the opcode is
`OP_INVALIDOPCODE`, and the bytes are not read again. -/
def multisigKeys (it : CScript) : Except Thrown (Option (List valtype × UInt8 × CScript)) :=
  match _h : GetScriptOp it with
  | none => return some ([], OP_INVALIDOPCODE, it)
  | some (opcode, data, rest) =>
    if CPubKey.ValidSize data then do
      -- `opcode < 0 || opcode > OP_PUSHDATA4 || !CheckMinimalPush(data, opcode)`
      if opcode > OP_PUSHDATA4 then return none
      let minimal ← CheckMinimalPush data opcode
      if !minimal then return none
      let tail ← multisigKeys rest
      return tail.map fun (keys, op, r) => (data :: keys, op, r)
    else return some ([], opcode, rest)
termination_by it.length
decreasing_by exact getScriptOp_length_lt _h

/-- `MatchMultisig(script, required, pubkeys)`: the number of signatures
required and the keys, where it returns `true`. -/
def MatchMultisig (script : CScript) : Except Thrown (Option (Nat × List valtype)) := do
  if script.length < 1 ∨ script.getLast? ≠ some OP_CHECKMULTISIG_BYTE then return none
  let some (opcode, _, it) := GetScriptOp script | return none
  if !IsSmallInteger opcode then return none
  let required := DecodeOP_N opcode
  let some (pubkeys, opcode, it) ← multisigKeys it | return none
  if !IsSmallInteger opcode then return none
  let keys := DecodeOP_N opcode
  if pubkeys.length ≠ keys ∨ keys < required then return none
  -- `it + 1 == script.end()`: only `OP_CHECKMULTISIG` is left
  return if it.length = 1 then some (required, pubkeys) else none

/-- `Solver(scriptPubKey, vSolutionsRet)`: the template and its solutions. -/
def Solver (scriptPubKey : CScript) : Except Thrown (TxoutType × List valtype) := do
  -- pay-to-script-hash first, the most constrained template
  if IsPayToScriptHash scriptPubKey then
    return (.SCRIPTHASH, [(scriptPubKey.drop 2).take 20])
  -- provably prunable, data-carrying output
  if scriptPubKey.length ≥ 1 ∧ scriptPubKey.getD 0 0 = OP_RETURN_BYTE ∧
      IsPushOnly (scriptPubKey.drop 1) = true then
    return (.NULL_DATA, [])
  if let some data := MatchPayToPubkey scriptPubKey then
    return (.PUBKEY, [data])
  if let some data := MatchPayToPubkeyHash scriptPubKey then
    return (.PUBKEYHASH, [data])
  if let some (required, keys) ← MatchMultisig scriptPubKey then
    -- `static_cast<uint8_t>`, exact as both counts are at most 16
    return (.MULTISIG, [[required.toUInt8]] ++ keys ++ [[keys.length.toUInt8]])
  return (.NONSTANDARD, [])

/-- `MAX_OP_RETURN_RELAY`, the default of `-datacarriersize`. -/
def MAX_OP_RETURN_RELAY : Nat := 223

/-- `IsStandard(scriptPubKey, whichType)` of policy/policy.cpp, with
`fAcceptDatacarrier` and the `-datacarriersize` argument as parameters: a
template other than `NONSTANDARD`, multisig only up to x-of-3, and data only
where the node carries it, up to the size allowed. -/
def IsStandard (fAcceptDatacarrier : Bool) (nMaxDatacarrierBytes : Nat) (scriptPubKey : CScript) :
    Except Thrown Bool := do
  let (whichType, vSolutions) ← Solver scriptPubKey
  match whichType with
  | .NONSTANDARD => return false
  | .MULTISIG =>
    -- `vSolutions.front()[0]` and `vSolutions.back()[0]`
    let m := (vSolutions.headD []).headD 0
    let n := (vSolutions.getLastD []).headD 0
    if n < 1 ∨ n > 3 then return false
    if m < 1 ∨ m > n then return false
    return true
  | .NULL_DATA =>
    if !fAcceptDatacarrier then return false
    if scriptPubKey.length > nMaxDatacarrierBytes then return false
    return true
  | _ => return true

/-! ## Destinations -/

/-- `uint160`: twenty bytes. -/
structure uint160 where
  data : List UInt8
  size_eq : data.length = 20
  deriving DecidableEq

/-- `uint160(vch)`, which asserts that `vch` has twenty bytes. -/
def uint160.ofBytes (vch : valtype) : Except Thrown uint160 :=
  if h : vch.length = 20 then .ok ⟨vch, h⟩ else .error .abort

/-- `CTxDestination`, `boost::variant<CNoDestination, PKHash, ScriptHash>`. -/
inductive CTxDestination where
  | CNoDestination
  | PKHash (hash : uint160)
  | ScriptHash (hash : uint160)
  deriving DecidableEq

/-- `ExtractDestination(scriptPubKey, addressRet)`: the destination, where it
returns `true`. `Hash160` is the hash of a key, `CPubKey::GetID()`. -/
def ExtractDestination (Hash160 : valtype → uint160) (scriptPubKey : CScript) :
    Except Thrown (Option CTxDestination) := do
  let (whichType, vSolutions) ← Solver scriptPubKey
  -- `vSolutions[0]`: each of these templates has one solution
  match whichType with
  | .PUBKEY =>
    -- `CPubKey pubKey(vSolutions[0])` is valid exactly on bytes of a valid size
    if !CPubKey.ValidSize (vSolutions.headD []) then return none
    return some (.PKHash (Hash160 (vSolutions.headD [])))
  | .PUBKEYHASH => return some (.PKHash (← uint160.ofBytes (vSolutions.headD [])))
  | .SCRIPTHASH => return some (.ScriptHash (← uint160.ofBytes (vSolutions.headD [])))
  | _ => return none

/-- `GetScriptForDestination(dest)`. -/
def GetScriptForDestination : CTxDestination → CScript
  | .CNoDestination => []
  | .PKHash keyID =>
    [OP_DUP_BYTE, OP_HASH160_BYTE] ++ pushBytes keyID.data ++ [OP_EQUALVERIFY_BYTE, OP_CHECKSIG_BYTE]
  | .ScriptHash scriptID => [OP_HASH160_BYTE] ++ pushBytes scriptID.data ++ [OP_EQUAL_BYTE]

/-- `GetScriptForMultisig(nRequired, keys)`, each key given by its bytes
`ToByteVector(key)`. -/
def GetScriptForMultisig (nRequired : Int) (keys : List valtype) : Except Thrown CScript := do
  let opRequired ← EncodeOP_N nRequired
  let opKeys ← EncodeOP_N keys.length
  return [opRequired] ++ keys.flatMap pushBytes ++ [opKeys, OP_CHECKMULTISIG_BYTE]

/-! ## The templates -/

/-- A direct push of `b`: its length, then its bytes. -/
def directPush (b : valtype) : CScript := b.length.toUInt8 :: b

/-- The opcode of the small integer `n`, `OP_1 + n - 1`. -/
def opN (n : Nat) : UInt8 := (OP_1_BYTE.toNat - 1 + n).toUInt8

/-- The standard templates as the scripts they are, each with the solutions
`Solver` reports: a hash or a key is pushed directly, the counts of a multisig
script are `OP_m` and `OP_n`. -/
inductive Template : CScript → TxoutType → List valtype → Prop
  | scripthash (hash : valtype) (h : hash.length = 20) :
      Template (OP_HASH160_BYTE :: directPush hash ++ [OP_EQUAL_BYTE]) .SCRIPTHASH [hash]
  | nullData (data : CScript) (h : IsPushOnly data = true) :
      Template (OP_RETURN_BYTE :: data) .NULL_DATA []
  | pubkey (key : valtype) (h : CPubKey.ValidSize key = true) :
      Template (directPush key ++ [OP_CHECKSIG_BYTE]) .PUBKEY [key]
  | pubkeyhash (hash : valtype) (h : hash.length = 20) :
      Template ([OP_DUP_BYTE, OP_HASH160_BYTE] ++ directPush hash ++ [OP_EQUALVERIFY_BYTE, OP_CHECKSIG_BYTE])
        .PUBKEYHASH [hash]
  | multisig (m : Nat) (keys : List valtype) (h1 : 1 ≤ m) (hm : m ≤ keys.length) (h16 : keys.length ≤ 16)
      (hkeys : ∀ k ∈ keys, CPubKey.ValidSize k = true) :
      Template (opN m :: keys.flatMap directPush ++ [opN keys.length, OP_CHECKMULTISIG_BYTE]) .MULTISIG
        ([[m.toUInt8]] ++ keys ++ [[keys.length.toUInt8]])

/-! ## Keys and pushes -/

/-- A key of a valid size has 33 or 65 bytes. -/
theorem ValidSize_length {k : valtype} (h : CPubKey.ValidSize k = true) : k.length = 33 ∨ k.length = 65 := by
  rw [CPubKey.ValidSize, Bool.and_eq_true, beq_iff_eq, decide_eq_true_iff] at h
  obtain ⟨hpos, hlen⟩ := h
  rw [← hlen]
  unfold CPubKey.GetLen at hlen ⊢
  by_cases h1 : k.getD 0 0 = 2 ∨ k.getD 0 0 = 3
  · rw [if_pos h1]
    exact .inl rfl
  rw [if_neg h1] at hlen ⊢
  by_cases h2 : k.getD 0 0 = 4 ∨ k.getD 0 0 = 6 ∨ k.getD 0 0 = 7
  · rw [if_pos h2]
    exact .inr rfl
  rw [if_neg h2] at hlen
  omega

theorem pushBytes_eq_directPush {b : valtype} (h : b.length < 76) : pushBytes b = directPush b := by
  rw [pushBytes, if_pos (show b.length < OP_PUSHDATA1.toNat from h)]
  rfl

theorem GetScriptOp_directPush {b : valtype} (h : b.length < 76) (rest : List UInt8) :
    GetScriptOp (directPush b ++ rest) = some (b.length.toUInt8, b, rest) := by
  rw [← pushBytes_eq_directPush h]
  exact GetScriptOp_pushBytes_of_lt h rest

/-- A direct push decodes back to the bytes it was read from. -/
theorem eq_directPush_of_some {s rest : CScript} {op : UInt8} {data : valtype}
    (h : GetScriptOp s = some (op, data, rest)) (hop : op < OP_PUSHDATA1) : s = directPush data ++ rest := by
  cases s with
  | nil => simp [GetScriptOp] at h
  | cons b r =>
    obtain rfl := GetScriptOp_opcode h
    have hle : op ≤ OP_PUSHDATA4 := UInt8.le_of_lt (UInt8.lt_trans hop (by decide))
    rw [GetScriptOp_cons, if_pos hle] at h
    unfold sizeField at h
    rw [if_pos hop] at h
    dsimp only at h
    split at h
    · cases h
    · rename_i hr
      simp only [Option.some.injEq, Prod.mk.injEq] at h
      obtain ⟨-, rfl, rfl⟩ := h
      have hlen : (r.take op.toNat).length = op.toNat := by
        rw [List.length_take]
        omega
      have hop8 : op.toNat.toUInt8 = op := UInt8.ofNat_toNat
      rw [directPush, hlen, hop8, List.cons_append, List.take_append_drop]

/-- An opcode above the pushes decodes as its one byte. -/
theorem eq_cons_of_gt {s rest : CScript} {op : UInt8} {data : valtype}
    (h : GetScriptOp s = some (op, data, rest)) (hop : OP_PUSHDATA4 < op) : s = op :: rest ∧ data = [] := by
  cases s with
  | nil => simp [GetScriptOp] at h
  | cons b r =>
    obtain rfl := GetScriptOp_opcode h
    rw [GetScriptOp_cons_of_gt r hop] at h
    simp only [Option.some.injEq, Prod.mk.injEq] at h
    obtain ⟨-, rfl, rfl⟩ := h
    exact ⟨rfl, rfl⟩

/-- A key of a valid size is minimal exactly when pushed directly. -/
theorem CheckMinimalPush_key {k : valtype} (hk : CPubKey.ValidSize k = true) {op : UInt8}
    (hop : op ≤ OP_PUSHDATA4) : CheckMinimalPush k op = .ok (op.toNat == k.length) := by
  have hlen := ValidSize_length hk
  rw [CheckMinimalPush, assert, if_pos (decide_eq_true hop)]
  simp only [Except.ok_bind]
  rw [if_neg (by omega), if_neg (by simp; omega), if_neg (by simp; omega), if_pos (by omega)]
  rfl

/-- A small integer is no push. -/
theorem lt_of_IsSmallInteger {op : UInt8} (h : IsSmallInteger op = true) : OP_PUSHDATA4 < op := by
  rw [IsSmallInteger, Bool.and_eq_true, decide_eq_true_iff, decide_eq_true_iff] at h
  exact UInt8.lt_of_lt_of_le (by decide) h.1

theorem IsSmallInteger_opN {n : Nat} (h1 : 1 ≤ n) (h16 : n ≤ 16) : IsSmallInteger (opN n) = true := by
  have h81 : OP_1_BYTE.toNat = 0x51 := rfl
  have hn : (opN n).toNat = 0x50 + n := by
    rw [opN, h81, Nat.toUInt8, UInt8.toNat_ofNat', Nat.mod_eq_of_lt (by omega)]
  rw [IsSmallInteger, Bool.and_eq_true, decide_eq_true_iff, decide_eq_true_iff, UInt8.le_iff_toNat_le,
    UInt8.le_iff_toNat_le, hn, h81]
  exact ⟨by omega, by show 0x50 + n ≤ 0x60; omega⟩

/-! ## The key loop of `MatchMultisig` -/

theorem multisigKeys_of_none {it : CScript} (h : GetScriptOp it = none) :
    multisigKeys it = .ok (some ([], OP_INVALIDOPCODE, it)) := by
  rw [multisigKeys]
  split
  · rfl
  · rename_i h'
    rw [h] at h'
    cases h'

section KeyLoop

variable {it rest : CScript} {opcode : UInt8} {data : valtype}

theorem multisigKeys_of_not_key (h : GetScriptOp it = some (opcode, data, rest))
    (hk : ¬CPubKey.ValidSize data = true) : multisigKeys it = .ok (some ([], opcode, rest)) := by
  rw [multisigKeys]
  split
  · rename_i h'
    rw [h] at h'
    cases h'
  · rename_i h'
    rw [h] at h'
    cases h'
    rw [if_neg hk]
    rfl

/-- A key: it must be pushed directly, and the loop goes on after it. -/
theorem multisigKeys_of_key (h : GetScriptOp it = some (opcode, data, rest))
    (hk : CPubKey.ValidSize data = true) (hop : ¬opcode > OP_PUSHDATA4) :
    multisigKeys it = if opcode.toNat = data.length then
      multisigKeys rest >>= fun tail => .ok (tail.map fun (keys, op, r) => (data :: keys, op, r))
    else .ok none := by
  rw [multisigKeys]
  split
  · rename_i h'
    rw [h] at h'
    cases h'
  · rename_i h'
    rw [h] at h'
    cases h'
    rw [if_pos hk, if_neg hop, CheckMinimalPush_key hk (UInt8.not_lt.mp hop)]
    by_cases hlen : opcode.toNat = data.length
    · simp [hlen]
      rfl
    · simp [hlen]

/-- A push above `OP_PUSHDATA4` is empty, so the loop never meets one as a key. -/
theorem not_key_of_gt (h : GetScriptOp it = some (opcode, data, rest)) (hop : opcode > OP_PUSHDATA4) :
    ¬CPubKey.ValidSize data = true := by
  rw [(eq_cons_of_gt h hop).2]
  decide

end KeyLoop

/-- The loop never reaches `CheckMinimalPush`'s assert. -/
theorem multisigKeys_ok (it : CScript) : ∃ r, multisigKeys it = .ok r := by
  induction it using multisigKeys.induct with
  | case1 it hnone => exact ⟨_, multisigKeys_of_none hnone⟩
  | case2 it opcode data rest hsome hk hop => exact absurd hk (not_key_of_gt hsome hop)
  | case3 it opcode data rest hsome hk hop ih =>
    obtain ⟨r, hr⟩ := ih
    rw [multisigKeys_of_key hsome hk hop, hr]
    split
    · exact ⟨_, rfl⟩
    · exact ⟨_, rfl⟩
  | case4 it opcode data rest hsome hk => exact ⟨_, multisigKeys_of_not_key hsome hk⟩

/-- Where the loop stops at a small integer, it has read keys pushed directly
up to it. The induction follows the loop: each key is a direct push, and the
stop is the opcode's one byte. -/
theorem multisigKeys_sound {it : CScript} : ∀ {keys : List valtype} {op : UInt8} {rest : CScript},
    multisigKeys it = .ok (some (keys, op, rest)) → IsSmallInteger op = true →
      it = keys.flatMap directPush ++ op :: rest ∧ ∀ k ∈ keys, CPubKey.ValidSize k = true := by
  induction it using multisigKeys.induct with
  | case1 it hnone =>
    intro keys op rest h hsmall
    rw [multisigKeys_of_none hnone] at h
    -- the loop stops at `OP_INVALIDOPCODE`, no small integer
    obtain ⟨-, rfl, -⟩ : [] = keys ∧ OP_INVALIDOPCODE = op ∧ it = rest := by simpa using h
    exact absurd hsmall (by decide)
  | case2 it opcode data rest hsome hk hop => exact absurd hk (not_key_of_gt hsome hop)
  | case3 it opcode data rest' hsome hk hop ih =>
    intro keys op rest h hsmall
    rw [multisigKeys_of_key hsome hk hop] at h
    split at h
    · rename_i hlen
      obtain ⟨r, hr⟩ := multisigKeys_ok rest'
      rw [hr] at h
      rcases r with _ | ⟨keys', op', r'⟩
      · simp at h
      · obtain ⟨rfl, rfl, rfl⟩ : data :: keys' = keys ∧ op' = op ∧ r' = rest := by simpa using h
        obtain ⟨hrest, hkeys⟩ := ih hr hsmall
        -- a key is shorter than `OP_PUSHDATA1`: it was pushed directly
        have hlt : opcode < OP_PUSHDATA1 := by
          rw [UInt8.lt_iff_toNat_lt, hlen]
          rcases ValidSize_length hk with h | h <;> rw [h] <;> decide
        refine ⟨?_, ?_⟩
        · rw [eq_directPush_of_some hsome hlt, hrest, List.flatMap_cons, List.append_assoc]
        · intro k hk'
          rcases List.mem_cons.mp hk' with rfl | hk'
          · exact hk
          · exact hkeys k hk'
    · cases h
  | case4 it opcode data rest' hsome hk =>
    intro keys op rest h hsmall
    rw [multisigKeys_of_not_key hsome hk] at h
    obtain ⟨rfl, rfl, rfl⟩ : [] = keys ∧ opcode = op ∧ rest' = rest := by simpa using h
    exact ⟨(eq_cons_of_gt hsome (lt_of_IsSmallInteger hsmall)).1, fun _ h => nomatch h⟩

/-- The loop reads keys pushed directly and stops at the first opcode above
the pushes. -/
theorem multisigKeys_directPush (op : UInt8) (hop : OP_PUSHDATA4 < op) (rest : CScript) :
    ∀ keys : List valtype, (∀ k ∈ keys, CPubKey.ValidSize k = true) →
      multisigKeys (keys.flatMap directPush ++ op :: rest) = .ok (some (keys, op, rest))
  | [], _ => multisigKeys_of_not_key (GetScriptOp_cons_of_gt rest hop) (by decide)
  | k :: keys, hkeys => by
    have hk := hkeys k List.mem_cons_self
    have hlen := ValidSize_length hk
    have hlt : k.length < 76 := by omega
    have hk8 : k.length.toUInt8.toNat = k.length := toNat_toUInt8_of_lt (by omega)
    rw [List.flatMap_cons, List.append_assoc,
      multisigKeys_of_key (GetScriptOp_directPush hlt _) hk
        (fun h => absurd (UInt8.lt_iff_toNat_lt.mp h) (by rw [hk8]; show ¬78 < k.length; omega)),
      if_pos hk8, multisigKeys_directPush op hop rest keys (fun x hx => hkeys x (List.mem_cons_of_mem _ hx))]
    rfl

theorem toNat_opN {n : Nat} (h16 : n ≤ 16) : (opN n).toNat = 0x50 + n := by
  have h81 : OP_1_BYTE.toNat = 0x51 := rfl
  rw [opN, h81, Nat.toUInt8, UInt8.toNat_ofNat', Nat.mod_eq_of_lt (by omega)]

theorem DecodeOP_N_opN {n : Nat} (h1 : 1 ≤ n) (h16 : n ≤ 16) : DecodeOP_N (opN n) = n := by
  have hn := toNat_opN h16
  have hne : opN n ≠ OP_0 := fun h => by rw [h] at hn; exact absurd hn (by show ¬0 = 0x50 + n; omega)
  rw [DecodeOP_N, if_neg hne, hn, show OP_1_BYTE.toNat = 0x51 from rfl]
  omega

/-- A small integer is `OP_n` of the `n` it decodes to, from 1 to 16. -/
theorem opN_DecodeOP_N {op : UInt8} (h : IsSmallInteger op = true) :
    opN (DecodeOP_N op) = op ∧ 1 ≤ DecodeOP_N op ∧ DecodeOP_N op ≤ 16 := by
  rw [IsSmallInteger, Bool.and_eq_true, decide_eq_true_iff, decide_eq_true_iff, UInt8.le_iff_toNat_le,
    UInt8.le_iff_toNat_le] at h
  have h81 : OP_1_BYTE.toNat = 0x51 := rfl
  have h96 : OP_16_BYTE.toNat = 0x60 := rfl
  rw [h81, h96] at h
  have hne : op ≠ OP_0 := fun h0 => by rw [h0] at h; exact absurd h.1 (by decide)
  rw [DecodeOP_N, if_neg hne, h81]
  refine ⟨?_, by omega, by omega⟩
  rw [opN, h81, show 0x51 - 1 + (op.toNat - (0x51 - 1)) = op.toNat by omega]
  exact UInt8.ofNat_toNat

/-! ## `MatchMultisig` -/

/-- `MatchMultisig` never reaches an assert. -/
theorem MatchMultisig_ok (script : CScript) : ∃ r, MatchMultisig script = .ok r := by
  unfold MatchMultisig
  split
  · exact ⟨_, rfl⟩
  split
  · rename_i it _
    split
    · exact ⟨_, rfl⟩
    obtain ⟨r, hr⟩ := multisigKeys_ok it
    dsimp only
    rw [hr]
    rcases r with _ | ⟨pubkeys, op, it'⟩
    · exact ⟨_, rfl⟩
    · rw [Except.ok_bind]
      dsimp only
      split
      · exact ⟨_, rfl⟩
      split
      · exact ⟨_, rfl⟩
      · exact ⟨_, rfl⟩
  · exact ⟨_, rfl⟩

/-- What `MatchMultisig` accepts is the multisig template, read back to its
counts and keys. -/
theorem MatchMultisig_sound {script : CScript} {m : Nat} {keys : List valtype}
    (h : MatchMultisig script = .ok (some (m, keys))) :
    Template script .MULTISIG ([[m.toUInt8]] ++ keys ++ [[keys.length.toUInt8]]) := by
  unfold MatchMultisig at h
  split at h
  · simp at h
  rename_i hlast
  split at h
  · rename_i opcode _ it hget
    split at h
    · simp at h
    rename_i hsmall
    obtain ⟨r, hr⟩ := multisigKeys_ok it
    dsimp only at h
    rw [hr] at h
    rcases r with _ | ⟨pubkeys, op, it'⟩
    · simp at h
    rw [Except.ok_bind] at h
    dsimp only at h
    split at h
    · simp at h
    rename_i hsmall'
    split at h
    · simp at h
    rename_i hcount
    split at h
    · rename_i hlen
      obtain ⟨hm, hkeys⟩ : DecodeOP_N opcode = m ∧ pubkeys = keys := by simpa using h
      subst pubkeys
      have hs1 : IsSmallInteger opcode = true := by simpa using hsmall
      have hs2 : IsSmallInteger op = true := by simpa using hsmall'
      obtain ⟨hop1, hm1, hm16⟩ := opN_DecodeOP_N hs1
      obtain ⟨hop2, -, hn16⟩ := opN_DecodeOP_N hs2
      rw [hm] at hop1 hm1 hm16 hcount
      have hn : keys.length = DecodeOP_N op ∧ m ≤ DecodeOP_N op := by omega
      obtain ⟨hit, hkeys⟩ := multisigKeys_sound hr hs2
      obtain ⟨x, rfl⟩ := List.length_eq_one_iff.mp hlen
      have hscript := (eq_cons_of_gt hget (lt_of_IsSmallInteger hs1)).1
      -- the byte left is the last one, `OP_CHECKMULTISIG`
      have hx : x = OP_CHECKMULTISIG_BYTE := by
        rw [hscript, hit, show opcode :: (keys.flatMap directPush ++ [op, x]) =
          (opcode :: keys.flatMap directPush ++ [op]) ++ [x] by simp, List.getLast?_concat] at hlast
        simpa using hlast
      rw [hscript, hit, hx, ← hop1, ← hop2, ← hn.1]
      exact Template.multisig m keys hm1 (by omega) (by omega) hkeys
    · simp at h
  · simp at h

/-- The multisig template is accepted with its counts and keys. -/
theorem MatchMultisig_template {m : Nat} {keys : List valtype} (h1 : 1 ≤ m) (hm : m ≤ keys.length)
    (h16 : keys.length ≤ 16) (hkeys : ∀ k ∈ keys, CPubKey.ValidSize k = true) :
    MatchMultisig (opN m :: keys.flatMap directPush ++ [opN keys.length, OP_CHECKMULTISIG_BYTE]) =
      .ok (some (m, keys)) := by
  have hsm := IsSmallInteger_opN h1 (by omega)
  have hsn := IsSmallInteger_opN (by omega) h16
  have hlast : (opN m :: keys.flatMap directPush ++ [opN keys.length, OP_CHECKMULTISIG_BYTE]).getLast? =
      some OP_CHECKMULTISIG_BYTE := by
    rw [show opN m :: keys.flatMap directPush ++ [opN keys.length, OP_CHECKMULTISIG_BYTE] =
      (opN m :: keys.flatMap directPush ++ [opN keys.length]) ++ [OP_CHECKMULTISIG_BYTE] by simp,
      List.getLast?_concat]
  unfold MatchMultisig
  rw [if_neg (by rw [hlast]; simp), List.cons_append, GetScriptOp_cons_of_gt _ (lt_of_IsSmallInteger hsm)]
  dsimp only
  rw [if_neg (by rw [hsm]; decide), multisigKeys_directPush _ (lt_of_IsSmallInteger hsn) _ keys hkeys,
    Except.ok_bind]
  dsimp only
  rw [if_neg (by rw [hsn]; decide), DecodeOP_N_opN h1 (by omega), DecodeOP_N_opN (by omega) h16,
    if_neg (by omega)]
  rfl

/-! ## The fixed templates -/

/-- A list of `n + 1` elements ends with one of them. -/
theorem exists_eq_concat {α : Type} {t : List α} {n : Nat} (h : t.length = n + 1) :
    ∃ init x, t = init ++ [x] ∧ init.length = n := by
  rcases List.eq_nil_or_concat t with rfl | ⟨init, x, rfl⟩
  · simp at h
  · exact ⟨init, x, by rw [List.concat_eq_append], by simpa using h⟩

theorem IsPayToScriptHash_template {hash : valtype} (h : hash.length = 20) :
    IsPayToScriptHash (OP_HASH160_BYTE :: directPush hash ++ [OP_EQUAL_BYTE]) = true := by
  simp [IsPayToScriptHash, directPush, h, List.getD_eq_getElem?_getD]

/-- A P2SH script is `OP_HASH160`, a direct push of the hash `Solver` copies
out, and `OP_EQUAL`. -/
theorem IsPayToScriptHash_sound {s : CScript} (h : IsPayToScriptHash s = true) :
    ∃ hash, hash.length = 20 ∧ s = OP_HASH160_BYTE :: directPush hash ++ [OP_EQUAL_BYTE] ∧
      (s.drop 2).take 20 = hash := by
  match s, h with
  | a :: b :: t, h =>
    simp only [IsPayToScriptHash, List.length_cons, List.getD_cons_zero, List.getD_cons_succ,
      Bool.and_eq_true, beq_iff_eq] at h
    obtain ⟨⟨⟨hlen, rfl⟩, rfl⟩, hlast⟩ := h
    obtain ⟨hash, x, rfl, hhash⟩ := exists_eq_concat (t := t) (n := 20) (by omega)
    have hx : x = OP_EQUAL_BYTE := by simpa [List.getD_eq_getElem?_getD, List.getElem?_append, hhash] using hlast
    subst hx
    exact ⟨hash, hhash, by simp [directPush, hhash], by simp [hhash]⟩

theorem MatchPayToPubkeyHash_template {hash : valtype} (h : hash.length = 20) :
    MatchPayToPubkeyHash ([OP_DUP_BYTE, OP_HASH160_BYTE] ++ directPush hash ++
      [OP_EQUALVERIFY_BYTE, OP_CHECKSIG_BYTE]) = some hash := by
  rw [MatchPayToPubkeyHash, if_pos (by simp [directPush, h, List.getD_eq_getElem?_getD])]
  simp [directPush, h]

/-- A P2PKH script is `OP_DUP OP_HASH160`, a direct push of the hash and
`OP_EQUALVERIFY OP_CHECKSIG`. -/
theorem MatchPayToPubkeyHash_sound {s : CScript} {hash : valtype} (h : MatchPayToPubkeyHash s = some hash) :
    hash.length = 20 ∧
      s = [OP_DUP_BYTE, OP_HASH160_BYTE] ++ directPush hash ++ [OP_EQUALVERIFY_BYTE, OP_CHECKSIG_BYTE] := by
  unfold MatchPayToPubkeyHash at h
  split at h
  · rename_i hc
    obtain rfl := Option.some.inj h
    match s, hc with
    | a :: b :: c :: t, ⟨hlen, h0, h1, h2, h23, h24⟩ =>
      simp only [List.getD_cons_zero, List.getD_cons_succ] at h0 h1 h2
      subst h0 h1 h2
      obtain ⟨t', e, rfl, ht'⟩ := exists_eq_concat (t := t) (n := 21) (by simp at hlen; omega)
      obtain ⟨hash, d, rfl, hhash⟩ := exists_eq_concat (t := t') (n := 20) ht'
      have hd : d = OP_EQUALVERIFY_BYTE := by
        simpa [List.getD_eq_getElem?_getD, List.getElem?_append, hhash] using h23
      have he : e = OP_CHECKSIG_BYTE := by
        simpa [List.getD_eq_getElem?_getD, List.getElem?_append, hhash] using h24
      subst hd he
      exact ⟨by simp [hhash], by simp [directPush, hhash]⟩
  · cases h

/-- The fixed shape of a P2PK script with a key of `n` bytes. -/
theorem pubkey_shape {s : CScript} {n : Nat} (hlen : s.length = n + 2)
    (h0 : (s.getD 0 0).toNat = n) (hlast : s.getLast? = some OP_CHECKSIG_BYTE) :
    s = directPush ((s.drop 1).take n) ++ [OP_CHECKSIG_BYTE] := by
  match s, hlen, h0 with
  | a :: t, hlen, h0 =>
    obtain ⟨key, x, rfl, hkey⟩ := exists_eq_concat (t := t) (n := n) (by simp at hlen; omega)
    have hx : x = OP_CHECKSIG_BYTE := by
      rw [← List.cons_append, List.getLast?_concat] at hlast
      exact Option.some.inj hlast
    subst hx
    have ha : a = n.toUInt8 := by
      rw [← h0]
      exact UInt8.ofNat_toNat.symm
    have htake : ((a :: (key ++ [OP_CHECKSIG_BYTE])).drop 1).take n = key := by
      rw [List.drop_one, List.tail_cons, List.take_append_of_le_length (by omega), ← hkey, List.take_length]
    rw [htake, directPush, hkey, ha]
    rfl

theorem MatchPayToPubkey_template {key : valtype} (h : CPubKey.ValidSize key = true) :
    MatchPayToPubkey (directPush key ++ [OP_CHECKSIG_BYTE]) = some key := by
  have hlast : (directPush key ++ [OP_CHECKSIG_BYTE]).getLast? = some OP_CHECKSIG_BYTE := List.getLast?_concat
  have hfirst : ((directPush key ++ [OP_CHECKSIG_BYTE]).getD 0 0).toNat = key.length :=
    toNat_toUInt8_of_lt (by rcases ValidSize_length h with h | h <;> omega)
  have hlen : (directPush key ++ [OP_CHECKSIG_BYTE]).length = key.length + 2 := by simp [directPush]
  have htake : ((directPush key ++ [OP_CHECKSIG_BYTE]).drop 1).take key.length = key := by simp [directPush]
  unfold MatchPayToPubkey
  rcases ValidSize_length h with h33 | h65
  · rw [if_neg (fun hc => by rw [hlen, h33] at hc; exact absurd hc.1 (by decide)),
      if_pos ⟨by rw [hlen, h33]; rfl, by rw [hfirst, h33]; rfl, hlast⟩]
    dsimp only
    rw [show CPubKey.COMPRESSED_SIZE = key.length by rw [h33]; rfl, htake, if_pos h]
  · rw [if_pos ⟨by rw [hlen, h65]; rfl, by rw [hfirst, h65]; rfl, hlast⟩]
    dsimp only
    rw [show CPubKey.SIZE = key.length by rw [h65]; rfl, htake, if_pos h]

/-- A P2PK script is a direct push of a key of a valid size, then
`OP_CHECKSIG`. -/
theorem MatchPayToPubkey_sound {s : CScript} {key : valtype} (h : MatchPayToPubkey s = some key) :
    CPubKey.ValidSize key = true ∧ s = directPush key ++ [OP_CHECKSIG_BYTE] := by
  unfold MatchPayToPubkey at h
  split at h
  · rename_i hc
    dsimp only at h
    split at h
    · obtain rfl := Option.some.inj h
      exact ⟨‹_›, pubkey_shape hc.1 hc.2.1 hc.2.2⟩
    · cases h
  · split at h
    · rename_i hc
      dsimp only at h
      split at h
      · obtain rfl := Option.some.inj h
        exact ⟨‹_›, pubkey_shape hc.1 hc.2.1 hc.2.2⟩
      · cases h
    · cases h

/-- The `NULL_DATA` test: `OP_RETURN`, then data that is push-only. -/
theorem nullData_iff {s : CScript} :
    (s.length ≥ 1 ∧ s.getD 0 0 = OP_RETURN_BYTE ∧ IsPushOnly (s.drop 1) = true) ↔
      ∃ data, s = OP_RETURN_BYTE :: data ∧ IsPushOnly data = true := by
  constructor
  · rintro ⟨hlen, h0, hpush⟩
    match s, hlen, h0 with
    | a :: data, _, h0 => exact ⟨data, by rw [← h0]; rfl, hpush⟩
  · rintro ⟨data, rfl, hpush⟩
    exact ⟨by simp, rfl, hpush⟩

/-! ## Telling the templates apart by their first byte -/

section FirstByte

variable {s : CScript}

theorem IsPayToScriptHash_of_head (h : s.getD 0 0 ≠ OP_HASH160_BYTE) : IsPayToScriptHash s = false := by
  have h0 : (s.getD 0 0 == OP_HASH160_BYTE) = false := beq_eq_false_iff_ne.mpr h
  rw [IsPayToScriptHash, h0, Bool.and_false, Bool.false_and, Bool.false_and]

theorem not_nullData_of_head (h : s.getD 0 0 ≠ OP_RETURN_BYTE) :
    ¬(s.length ≥ 1 ∧ s.getD 0 0 = OP_RETURN_BYTE ∧ IsPushOnly (s.drop 1) = true) :=
  fun hc => h hc.2.1

theorem MatchPayToPubkey_of_head (h65 : (s.getD 0 0).toNat ≠ 65) (h33 : (s.getD 0 0).toNat ≠ 33) :
    MatchPayToPubkey s = none := by
  rw [MatchPayToPubkey, if_neg (fun hc => h65 hc.2.1), if_neg (fun hc => h33 hc.2.1)]

theorem MatchPayToPubkeyHash_of_head (h : s.getD 0 0 ≠ OP_DUP_BYTE) : MatchPayToPubkeyHash s = none := by
  rw [MatchPayToPubkeyHash, if_neg (fun hc => h hc.2.1)]

end FirstByte

/-! ## `Solver` -/

/-- No template is `NONSTANDARD`. -/
theorem Template.ne_nonstandard {s : CScript} {t : TxoutType} {sols : List valtype} (h : Template s t sols) :
    t ≠ .NONSTANDARD := by
  cases h <;> decide

/-- On a script of a template, `Solver` returns that template's type and data.
Each template's first byte rules out the tests made before its own. -/
theorem Solver_of_Template {s : CScript} {t : TxoutType} {sols : List valtype} (h : Template s t sols) :
    Solver s = .ok (t, sols) := by
  cases h with
  | scripthash hash hlen =>
    rw [Solver, if_pos (IsPayToScriptHash_template hlen)]
    simp [directPush, hlen]
  | nullData data hpush =>
    have hfirst : (OP_RETURN_BYTE :: data).getD 0 0 = OP_RETURN_BYTE := rfl
    rw [Solver, if_neg (by rw [IsPayToScriptHash_of_head (by rw [hfirst]; decide)]; decide),
      if_pos (nullData_iff.mpr ⟨data, rfl, hpush⟩)]
    rfl
  | pubkey key hk =>
    have hfirst : ((directPush key ++ [OP_CHECKSIG_BYTE]).getD 0 0).toNat = key.length :=
      toNat_toUInt8_of_lt (by rcases ValidSize_length hk with h | h <;> omega)
    have hne : ∀ b : UInt8, 76 ≤ b.toNat → (directPush key ++ [OP_CHECKSIG_BYTE]).getD 0 0 ≠ b := by
      intro b hb heq
      rw [heq] at hfirst
      rcases ValidSize_length hk with h | h <;> omega
    rw [Solver, if_neg (by rw [IsPayToScriptHash_of_head (hne _ (by decide))]; decide),
      if_neg (not_nullData_of_head (hne _ (by decide))), MatchPayToPubkey_template hk]
    rfl
  | pubkeyhash hash hlen =>
    have hfirst : ([OP_DUP_BYTE, OP_HASH160_BYTE] ++ directPush hash ++
        [OP_EQUALVERIFY_BYTE, OP_CHECKSIG_BYTE]).getD 0 0 = OP_DUP_BYTE := rfl
    rw [Solver, if_neg (by rw [IsPayToScriptHash_of_head (by rw [hfirst]; decide)]; decide),
      if_neg (not_nullData_of_head (by rw [hfirst]; decide)),
      MatchPayToPubkey_of_head (by rw [hfirst]; decide) (by rw [hfirst]; decide),
      MatchPayToPubkeyHash_template hlen]
    rfl
  | multisig m keys h1 hm h16 hkeys =>
    -- `OP_m` is one of `0x51` to `0x60`
    have hfirst : ((opN m :: keys.flatMap directPush ++ [opN keys.length, OP_CHECKMULTISIG_BYTE]).getD 0 0).toNat =
        0x50 + m := toNat_opN (by omega)
    have hne : ∀ b : UInt8, (b.toNat < 0x51 ∨ 0x60 < b.toNat) →
        (opN m :: keys.flatMap directPush ++ [opN keys.length, OP_CHECKMULTISIG_BYTE]).getD 0 0 ≠ b := by
      intro b hb heq
      rw [heq] at hfirst
      omega
    rw [Solver, if_neg (by rw [IsPayToScriptHash_of_head (hne _ (by decide))]; decide),
      if_neg (not_nullData_of_head (hne _ (by decide))),
      MatchPayToPubkey_of_head (by rw [hfirst]; omega) (by rw [hfirst]; omega),
      MatchPayToPubkeyHash_of_head (hne _ (by decide)), MatchMultisig_template h1 hm h16 hkeys]
    rfl

/-- `Solver` never reaches an assert. -/
theorem Solver_eq_ok (s : CScript) : ∃ r, Solver s = .ok r := by
  obtain ⟨r, hr⟩ := MatchMultisig_ok s
  unfold Solver
  split
  · exact ⟨_, rfl⟩
  split
  · exact ⟨_, rfl⟩
  split
  · exact ⟨_, rfl⟩
  split
  · exact ⟨_, rfl⟩
  rw [hr]
  rcases r with _ | ⟨m, keys⟩
  · exact ⟨_, rfl⟩
  · exact ⟨_, rfl⟩

/-- Every answer of `Solver` is a template with its data, or `NONSTANDARD` with
no data. -/
theorem Solver_cases {s : CScript} {t : TxoutType} {sols : List valtype} (h : Solver s = .ok (t, sols)) :
    Template s t sols ∨ t = .NONSTANDARD ∧ sols = [] := by
  unfold Solver at h
  split at h
  · rename_i hp2sh
    obtain ⟨rfl, rfl⟩ := Prod.mk.inj (Except.ok.inj h)
    obtain ⟨hash, hlen, rfl, hd⟩ := IsPayToScriptHash_sound hp2sh
    rw [hd]
    exact .inl (.scripthash hash hlen)
  split at h
  · rename_i hnull
    obtain ⟨data, rfl, hpush⟩ := nullData_iff.mp hnull
    obtain ⟨rfl, rfl⟩ := Prod.mk.inj (Except.ok.inj h)
    exact .inl (.nullData data hpush)
  split at h
  · rename_i key hkey
    obtain ⟨hk, rfl⟩ := MatchPayToPubkey_sound hkey
    obtain ⟨rfl, rfl⟩ := Prod.mk.inj (Except.ok.inj h)
    exact .inl (.pubkey key hk)
  split at h
  · rename_i hash hhash
    obtain ⟨hlen, rfl⟩ := MatchPayToPubkeyHash_sound hhash
    obtain ⟨rfl, rfl⟩ := Prod.mk.inj (Except.ok.inj h)
    exact .inl (.pubkeyhash hash hlen)
  obtain ⟨r, hr⟩ := MatchMultisig_ok s
  rw [hr] at h
  rcases r with _ | ⟨m, keys⟩
  · obtain ⟨rfl, rfl⟩ := Prod.mk.inj (Except.ok.inj h)
    exact .inr ⟨rfl, rfl⟩
  · obtain ⟨rfl, rfl⟩ := Prod.mk.inj (Except.ok.inj h)
    exact .inl (MatchMultisig_sound hr)

/-! ## Scripts built by the wallet -/

theorem uint160.ofBytes_data (h : uint160) : uint160.ofBytes h.data = .ok h := by
  rw [uint160.ofBytes, dif_pos h.size_eq]

/-- A destination's script is read back to it. -/
theorem ExtractDestination_GetScriptForDestination (Hash160 : valtype → uint160) {d : CTxDestination}
    (hd : d ≠ .CNoDestination) : ExtractDestination Hash160 (GetScriptForDestination d) = .ok (some d) := by
  cases d with
  | CNoDestination => exact absurd rfl hd
  | PKHash keyID =>
    have ht : Template (GetScriptForDestination (.PKHash keyID)) .PUBKEYHASH [keyID.data] := by
      rw [GetScriptForDestination, pushBytes_eq_directPush (by rw [keyID.size_eq]; decide)]
      exact .pubkeyhash keyID.data keyID.size_eq
    rw [ExtractDestination, Solver_of_Template ht, Except.ok_bind]
    dsimp only
    rw [List.headD_cons, uint160.ofBytes_data]
    rfl
  | ScriptHash scriptID =>
    have ht : Template (GetScriptForDestination (.ScriptHash scriptID)) .SCRIPTHASH [scriptID.data] := by
      rw [GetScriptForDestination, pushBytes_eq_directPush (by rw [scriptID.size_eq]; decide)]
      exact .scripthash scriptID.data scriptID.size_eq
    rw [ExtractDestination, Solver_of_Template ht, Except.ok_bind]
    dsimp only
    rw [List.headD_cons, uint160.ofBytes_data]
    rfl

theorem EncodeOP_N_eq {n : Nat} (h1 : 1 ≤ n) (h16 : n ≤ 16) : EncodeOP_N n = .ok (opN n) := by
  rw [EncodeOP_N, assert, if_pos (by simp; omega), Except.ok_bind, if_neg (by omega), opN,
    show OP_1_BYTE.toNat + (n : Int).toNat - 1 = OP_1_BYTE.toNat - 1 + n by
      rw [Int.toNat_natCast, show OP_1_BYTE.toNat = 0x51 from rfl]
      omega]
  rfl

/-- A multisig script built from `m ≤ n ≤ 16` keys of valid sizes is
classified as multisig with its counts and keys. -/
theorem Solver_GetScriptForMultisig {m : Nat} {keys : List valtype} (h1 : 1 ≤ m) (hm : m ≤ keys.length)
    (h16 : keys.length ≤ 16) (hkeys : ∀ k ∈ keys, CPubKey.ValidSize k = true) :
    (GetScriptForMultisig m keys >>= Solver) =
      .ok (.MULTISIG, [[m.toUInt8]] ++ keys ++ [[keys.length.toUInt8]]) := by
  -- each key is short, so `script << key` pushes it directly
  have hpush : keys.flatMap pushBytes = keys.flatMap directPush := by
    refine List.flatMap_congr fun k hk => pushBytes_eq_directPush ?_
    rcases ValidSize_length (hkeys k hk) with h | h <;> omega
  rw [GetScriptForMultisig, EncodeOP_N_eq h1 (by omega), Except.ok_bind, EncodeOP_N_eq (by omega) h16,
    Except.ok_bind, hpush]
  exact Solver_of_Template (.multisig m keys h1 hm h16 hkeys)

/-- `Solver` is exact on the five templates and `NONSTANDARD` elsewhere, and
the scripts the wallet builds for destinations and multisig are read back. -/
theorem Solver_classifies_templates :
    (∀ s t sols, Solver s = .ok (t, sols) ↔
      Template s t sols ∨ t = .NONSTANDARD ∧ sols = [] ∧ ∀ t' sols', ¬Template s t' sols') ∧
    (∀ (Hash160 : valtype → uint160) (d : CTxDestination), d ≠ .CNoDestination →
      ExtractDestination Hash160 (GetScriptForDestination d) = .ok (some d)) ∧
    (∀ (m : Nat) (keys : List valtype), 1 ≤ m → m ≤ keys.length → keys.length ≤ 16 →
      (∀ k ∈ keys, CPubKey.ValidSize k = true) →
      (GetScriptForMultisig m keys >>= Solver) = .ok (.MULTISIG, [[m.toUInt8]] ++ keys ++ [[keys.length.toUInt8]])) := by
  refine ⟨fun s t sols => ⟨fun h => ?_, fun h => ?_⟩, fun Hash160 d hd =>
    ExtractDestination_GetScriptForDestination Hash160 hd, fun m keys h1 hm h16 hkeys =>
    Solver_GetScriptForMultisig h1 hm h16 hkeys⟩
  · rcases Solver_cases h with ht | ⟨rfl, rfl⟩
    · exact .inl ht
    · -- a template would have made `Solver` return its own type
      refine .inr ⟨rfl, rfl, fun t' sols' ht' => ?_⟩
      rw [Solver_of_Template ht'] at h
      exact ht'.ne_nonstandard (Prod.mk.inj (Except.ok.inj h)).1
  · rcases h with ht | ⟨rfl, rfl, hnone⟩
    · exact Solver_of_Template ht
    · obtain ⟨⟨t0, sols0⟩, hr⟩ := Solver_eq_ok s
      rcases Solver_cases hr with ht | ⟨rfl, rfl⟩
      · exact absurd ht (hnone _ _)
      · exact hr

/-- The P2PKH script of the zero hash is read back as that destination, and
the 1-of-1 multisig script over a compressed key as that multisig. -/
theorem Solver_classifies_templates_oneOfOne :
    ExtractDestination (fun _ => ⟨List.replicate 20 0, rfl⟩)
        (GetScriptForDestination (.PKHash ⟨List.replicate 20 0, rfl⟩)) =
      .ok (some (.PKHash ⟨List.replicate 20 0, rfl⟩)) ∧
    (GetScriptForMultisig 1 [0x02 :: List.replicate 32 0] >>= Solver) =
      .ok (.MULTISIG, [[1], 0x02 :: List.replicate 32 0, [1]]) :=
  ⟨Solver_classifies_templates.2.1 _ _ (by decide),
    Solver_classifies_templates.2.2 1 [0x02 :: List.replicate 32 0] (by decide) (by decide) (by decide)
      (by decide)⟩

end Script

end BitcoinAbc
