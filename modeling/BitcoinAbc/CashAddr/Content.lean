import Mathlib
import BitcoinAbc.CashAddr.Codec
import BitcoinAbc.Util.StrEncodings

/-!
# CashAddr contents (cashaddrenc.cpp)

An address carries a type and a hash. `PackAddrData` writes a version byte,
the type shifted by three with the size of the hash in the low three bits,
followed by the hash, and regroups the bytes into 5-bit values;
`DecodeCashAddrContent` undoes this and checks the version byte against the
length of what it read.

- `PackAddrData_eq`: each of the eight hash lengths has its size bits, and
  `hashSize` reads the length back from them;
- `DecodeCashAddrContent_pack`: a version byte with its reserved bit clear and
  a hash of the length it announces decode back, for a non-empty prefix of
  lowercase letters; with a type below `16` the version byte `PackAddrData`
  writes is one (`DecodeCashAddrContent_encode`);
- `DecodeCashAddrContent_EncodeCashAddr_nil`: under the empty prefix,
  `Encode` writes the separator first, `Decode` rejects it, and every
  address decodes to `{}`;
- `DecodeCashAddrContent_accepts`: what `DecodeCashAddrContent` returns with
  a hash comes from such a version byte, read from the payload of `Decode`;
- `DecodeCashAddrContent_ne_versionOfEmpty`: `data[0]` is never read from an
  empty `data`: a payload the unpadded `ConvertBits` accepts has a byte.
-/

namespace BitcoinAbc
namespace CashAddr

open Regroup

/-- `CashAddrContent`: `{}` is the type `0` and no hash. -/
structure CashAddrContent where
  type : UInt8 := 0
  hash : List UInt8 := []
  deriving DecidableEq, Repr

/-- `PackAddrData(id, type)`: the version byte and `id`, regrouped into 5-bit
values. -/
def PackAddrData (id : List UInt8) (type : UInt8) : Except String (List Nat) := do
  let version_byte := type <<< 3
  let encoded_size : UInt8 ← match id.length * 8 with
    | 160 => pure 0
    | 192 => pure 1
    | 224 => pure 2
    | 256 => pure 3
    | 320 => pure 4
    | 384 => pure 5
    | 448 => pure 6
    | 512 => pure 7
    | _ => throw "Error packing cashaddr: invalid address length"
  let version_byte := version_byte ||| encoded_size
  let data := version_byte :: id
  return (ConvertBits 8 5 true (data.map UInt8.toNat)).1

/-- `EncodeCashAddr(prefix, content)`. -/
def EncodeCashAddr (pre : List Char) (content : CashAddrContent) : Except String (List Char) := do
  let data ← PackAddrData content.hash content.type
  return Encode pre data

/-- The `hash_size` `DecodeCashAddrContent` reads from a version byte. -/
def hashSize (version : UInt8) : Nat :=
  let hash_size := 20 + 4 * (version &&& 0x03).toNat
  if version &&& 0x04 ≠ 0 then hash_size * 2 else hash_size

/-- What `DecodeCashAddrContent` may run into besides a result. -/
inductive ContentFault where
  /-- A fault of `cashaddr::Decode`. -/
  | decode (f : Fault)
  /-- `data[0]` of an empty `data`. -/
  | versionOfEmpty
  deriving DecidableEq, Repr

/-- `DecodeCashAddrContent(addr, expectedPrefix)`: the content, or `{}`. -/
def DecodeCashAddrContent (addr expectedPrefix : List Char) : Except ContentFault CashAddrContent := do
  let (pre, payload) ← (Decode addr expectedPrefix).mapError .decode
  if pre ≠ expectedPrefix then return {}
  if payload.isEmpty then return {}
  let (data, ok) := ConvertBits 5 8 false payload
  if !ok then return {}
  match data with
  | [] => throw .versionOfEmpty
  | version :: hash =>
    let version := UInt8.ofNat version
    -- the first bit is reserved
    if version &&& 0x80 ≠ 0 then return {}
    let type := (version >>> 3) &&& 0x1f
    if data.length ≠ hashSize version + 1 then return {}
    return ⟨type, hash.map UInt8.ofNat⟩

/-- The eight hash lengths `PackAddrData` accepts, each with its size bits,
which `hashSize` reads back. -/
theorem PackAddrData_eq {id : List UInt8} (hlen : id.length ∈ [20, 24, 28, 32, 40, 48, 56, 64]) (type : UInt8) :
    ∃ es : UInt8, es.toNat < 8 ∧ hashSize es = id.length ∧
      PackAddrData id type = .ok (ConvertBits 8 5 true ((((type <<< 3) ||| es) :: id).map UInt8.toNat)).1 := by
  simp only [List.mem_cons, List.not_mem_nil, or_false] at hlen
  rcases hlen with h | h | h | h | h | h | h | h
  · exact ⟨0, by decide, by rw [h]; decide, by simp [PackAddrData, h]⟩
  · exact ⟨1, by decide, by rw [h]; decide, by simp [PackAddrData, h]⟩
  · exact ⟨2, by decide, by rw [h]; decide, by simp [PackAddrData, h]⟩
  · exact ⟨3, by decide, by rw [h]; decide, by simp [PackAddrData, h]⟩
  · exact ⟨4, by decide, by rw [h]; decide, by simp [PackAddrData, h]⟩
  · exact ⟨5, by decide, by rw [h]; decide, by simp [PackAddrData, h]⟩
  · exact ⟨6, by decide, by rw [h]; decide, by simp [PackAddrData, h]⟩
  · exact ⟨7, by decide, by rw [h]; decide, by simp [PackAddrData, h]⟩

/-- A type below `16` shifted by three leaves the reserved bit clear and the
size bits to `es`, and shifts back. -/
theorem version_fields : ∀ t < 16, ∀ e < 8,
    ((UInt8.ofNat t <<< 3) ||| UInt8.ofNat e) &&& 0x80 = 0 ∧
      (((UInt8.ofNat t <<< 3) ||| UInt8.ofNat e) >>> 3) &&& 0x1f = UInt8.ofNat t ∧
      hashSize ((UInt8.ofNat t <<< 3) ||| UInt8.ofNat e) = hashSize (UInt8.ofNat e) := by
  decide

/-- The 5-bit values of a byte list: never empty when the list is not. -/
theorem ConvertBits_pack_ne_nil (v : UInt8) (hash : List UInt8) :
    (ConvertBits 8 5 true ((v :: hash).map UInt8.toNat)).1 ≠ [] := by
  obtain ⟨p, -, hreg, -⟩ := ConvertBits_pad (by decide : 0 < 5) (bytes_lt (v :: hash))
  intro hnil
  have hlen := hreg.length
  rw [hnil, List.length_nil, List.length_map, List.length_cons] at hlen
  omega

/-- A version byte with the reserved bit clear and a hash of the length it
announces decode back from the address `Encode` writes. -/
theorem DecodeCashAddrContent_pack {pre : List Char} (hpre : pre ≠ [])
    (hlower : ∀ c ∈ pre, 'a' ≤ c ∧ c ≤ 'z')
    {v : UInt8} {hash : List UInt8} (hv : v &&& 0x80 = 0) (hsize : hashSize v = hash.length) :
    DecodeCashAddrContent (Encode pre (ConvertBits 8 5 true ((v :: hash).map UInt8.toNat)).1) pre =
      .ok ⟨(v >>> 3) &&& 0x1f, hash⟩ := by
  obtain ⟨p, -, hreg, -⟩ := ConvertBits_pad (by decide : 0 < 5) (bytes_lt (v :: hash))
  have hdecode := Decode_Encode hpre hlower hreg.digits pre
  -- the 5-bit values regroup back into the version byte and the hash
  have hback : ConvertBits 5 8 false (ConvertBits 8 5 true ((v :: hash).map UInt8.toNat)).1 =
      ((v :: hash).map UInt8.toNat, true) :=
    ConvertBits_nopad_pad (by decide) (by decide) (bytes_lt (v :: hash))
  have hne : (ConvertBits 8 5 true ((v :: hash).map UInt8.toNat)).1.isEmpty = false :=
    List.isEmpty_eq_false_iff.mpr (ConvertBits_pack_ne_nil v hash)
  rw [DecodeCashAddrContent, hdecode]
  simp only [Except.mapError, bind, Except.bind, ne_eq, not_true_eq_false, if_false, hne, Bool.false_eq_true,
    hback, Bool.not_true]
  have hbytes : (hash.map UInt8.toNat).map UInt8.ofNat = hash := by
    rw [List.map_map]
    exact List.map_id'' (fun b => UInt8.ofNat_toNat) hash
  rw [List.map_cons]
  simp only [UInt8.ofNat_toNat, hv, not_true_eq_false, if_false, List.length_cons, List.length_map, hsize, hbytes]
  rfl

/-- What the unpadded `ConvertBits` reads from the payload of `Decode` is bytes. -/
theorem ConvertBits_Decode_lt {addr defaultPrefix pre : List Char} {payload data : List Nat}
    (hd : Decode addr defaultPrefix = .ok (pre, payload)) (hc : ConvertBits 5 8 false payload = (data, true)) :
    ∀ x ∈ data, x < 2 ^ 8 := by
  obtain ⟨q, -, -, hreg⟩ := (ConvertBits_nopad_iff (by decide) (Decode_lt hd)).mp hc
  exact hreg.source

/-- Values below `2 ^ 8` survive the trip through `UInt8`. -/
theorem map_toNat_ofNat {xs : List Nat} (h : ∀ x ∈ xs, x < 2 ^ 8) : (xs.map UInt8.ofNat).map UInt8.toNat = xs := by
  rw [List.map_map]
  conv_rhs => rw [← List.map_id xs]
  exact List.map_congr_left fun x hx => by
    rw [Function.comp_apply, UInt8.toNat_ofNat_of_lt' (h x hx), id]

/-- What `DecodeCashAddrContent` returns with a hash comes from the payload
of `Decode`, read as a version byte with the reserved bit clear, the type,
and a hash of the length the size bits announce. -/
theorem DecodeCashAddrContent_accepts {addr pre : List Char} {content : CashAddrContent}
    (h : DecodeCashAddrContent addr pre = .ok content) (hne : content.hash ≠ []) :
    ∃ payload v, Decode addr pre = .ok (pre, payload) ∧
      ConvertBits 5 8 false payload = ((v :: content.hash).map UInt8.toNat, true) ∧
      v &&& 0x80 = 0 ∧ content.type = (v >>> 3) &&& 0x1f ∧ content.hash.length = hashSize v := by
  unfold DecodeCashAddrContent at h
  cases hd : Decode addr pre with
  | error e =>
    rw [hd] at h
    cases h
  | ok r =>
    obtain ⟨p, payload⟩ := r
    rw [hd] at h
    simp only [Except.mapError, bind, Except.bind] at h
    -- each early `return {}` has no hash
    have hempty : ∀ c : CashAddrContent, (pure {} : Except ContentFault CashAddrContent) = .ok c → c.hash = [] := by
      intro c hc
      cases hc
      rfl
    split_ifs at h with hp hemp hok
    · exact absurd (hempty _ h) hne
    · exact absurd (hempty _ h) hne
    · exact absurd (hempty _ h) hne
    rw [ne_eq, not_not] at hp
    subst hp
    rw [Bool.not_eq_true', Bool.not_eq_false] at hok
    split at h
    · cases h
    rename_i version hash hdata
    split_ifs at h with h80 hlen
    · exact absurd (hempty _ h) hne
    · exact absurd (hempty _ h) hne
    cases h
    have hconv : ConvertBits 5 8 false payload = (version :: hash, true) := Prod.ext hdata hok
    have hbytes := ConvertBits_Decode_lt hd hconv
    refine ⟨payload, UInt8.ofNat version, rfl, ?_, not_not.mp h80, rfl, ?_⟩
    · rw [← List.map_cons, map_toNat_ofNat hbytes, hconv]
    · rw [hdata, List.length_cons] at hlen
      rw [List.length_map]
      omega

/-- `data[0]` is never read from an empty `data`. -/
theorem DecodeCashAddrContent_ne_versionOfEmpty (addr pre : List Char) :
    DecodeCashAddrContent addr pre ≠ .error .versionOfEmpty := by
  intro h
  unfold DecodeCashAddrContent at h
  cases hd : Decode addr pre with
  | error e =>
    rw [hd] at h
    cases h
  | ok r =>
    obtain ⟨p, payload⟩ := r
    rw [hd] at h
    simp only [Except.mapError, bind, Except.bind] at h
    split_ifs at h with hp hemp hok
    · cases h
    · cases h
    · cases h
    rw [Bool.not_eq_true', Bool.not_eq_false] at hok
    split at h
    · -- the unpadded conversion returned no byte, so it read no value
      rename_i hdata
      obtain ⟨q, hq, -, hreg⟩ := (ConvertBits_nopad_iff (by decide) (Decode_lt hd)).mp (Prod.ext hdata hok)
      have hlen := hreg.length
      rw [List.length_nil, Nat.mul_zero] at hlen
      have hnil : payload = [] := List.eq_nil_of_length_eq_zero (by omega)
      rw [hnil] at hemp
      exact hemp rfl
    · split_ifs at h <;> cases h

/-- Every address of a non-empty prefix of lowercase letters, whose content
has a type below `16` and one of the eight hash lengths, decodes back. -/
theorem DecodeCashAddrContent_encode {pre : List Char} (hpre : pre ≠ [])
    (hlower : ∀ c ∈ pre, 'a' ≤ c ∧ c ≤ 'z')
    {content : CashAddrContent} (htype : content.type < 16)
    (hlen : content.hash.length ∈ [20, 24, 28, 32, 40, 48, 56, 64]) :
    ∃ addr, EncodeCashAddr pre content = .ok addr ∧ DecodeCashAddrContent addr pre = .ok content := by
  obtain ⟨type, hash⟩ := content
  obtain ⟨es, hes, hsize, hpack⟩ := PackAddrData_eq hlen type
  have hfields := version_fields type.toNat (UInt8.lt_iff_toNat_lt.mp htype) es.toNat hes
  rw [UInt8.ofNat_toNat, UInt8.ofNat_toNat] at hfields
  obtain ⟨h80, htype', hsize'⟩ := hfields
  refine ⟨_, by rw [EncodeCashAddr, hpack]; rfl, ?_⟩
  rw [DecodeCashAddrContent_pack hpre hlower h80 (hsize'.trans hsize), htype']

/-- With the empty prefix, `Encode` writes the separator first, which `Decode`
rejects: the address decodes to `{}`. -/
theorem DecodeCashAddrContent_EncodeCashAddr_nil {content : CashAddrContent} {addr : List Char}
    (h : EncodeCashAddr [] content = .ok addr) : DecodeCashAddrContent addr [] = .ok {} := by
  unfold EncodeCashAddr at h
  cases hp : PackAddrData content.hash content.type with
  | error e =>
    rw [hp] at h
    cases h
  | ok data =>
    rw [hp] at h
    cases h
    have hdecode : Decode (Encode [] data) [] = .ok ([], []) := by
      rw [Decode, Encode, List.nil_append, List.singleton_append, scan]
      rfl
    rw [DecodeCashAddrContent, hdecode]
    rfl

/-- `EncodeCashAddr` and `DecodeCashAddrContent` are inverse on the contents
of a type below `16` with one of the eight hash lengths, under a non-empty
prefix of lowercase letters; and what `DecodeCashAddrContent` accepts has a
version byte with the reserved bit clear and the hash length its size bits
give. -/
theorem cashAddrContent_roundtrip :
    (∀ pre : List Char, pre ≠ [] → (∀ c ∈ pre, 'a' ≤ c ∧ c ≤ 'z') →
      ∀ content : CashAddrContent, content.type < 16 → content.hash.length ∈ [20, 24, 28, 32, 40, 48, 56, 64] →
        ∃ addr, EncodeCashAddr pre content = .ok addr ∧ DecodeCashAddrContent addr pre = .ok content) ∧
    (∀ (addr pre : List Char) (content : CashAddrContent), DecodeCashAddrContent addr pre = .ok content →
      content.hash ≠ [] →
        ∃ payload v, Decode addr pre = .ok (pre, payload) ∧
          ConvertBits 5 8 false payload = ((v :: content.hash).map UInt8.toNat, true) ∧
          v &&& 0x80 = 0 ∧ content.type = (v >>> 3) &&& 0x1f ∧ content.hash.length = hashSize v) :=
  ⟨fun _ hpre hlower _ htype hlen => DecodeCashAddrContent_encode hpre hlower htype hlen,
    fun _ _ _ h hne => DecodeCashAddrContent_accepts h hne⟩

theorem cashAddrContent_roundtrip_bitcoincash :
    ∃ addr, EncodeCashAddr "bitcoincash".toList ⟨1, List.replicate 20 7⟩ = .ok addr ∧
      DecodeCashAddrContent addr "bitcoincash".toList = .ok ⟨1, List.replicate 20 7⟩ :=
  cashAddrContent_roundtrip.1 _ (by decide) (by simp) _ (by decide) (by decide)

/-- The empty prefix: the address `EncodeCashAddr` writes decodes to `{}`. -/
theorem cashAddrContent_empty_prefix : ∃ addr, EncodeCashAddr [] ⟨0, List.replicate 20 0⟩ = .ok addr ∧
    DecodeCashAddrContent addr [] = .ok {} ∧ ({} : CashAddrContent) ≠ ⟨0, List.replicate 20 0⟩ := by
  obtain ⟨es, -, -, hpack⟩ := @PackAddrData_eq (List.replicate 20 0) (by decide) 0
  have hencode : EncodeCashAddr [] ⟨0, List.replicate 20 0⟩ =
      .ok (Encode [] (ConvertBits 8 5 true
        ((((0 : UInt8) <<< 3 ||| es) :: List.replicate 20 0).map UInt8.toNat)).1) := by
    rw [EncodeCashAddr, hpack]
    rfl
  exact ⟨_, hencode, DecodeCashAddrContent_EncodeCashAddr_nil hencode, by decide⟩

end CashAddr
end BitcoinAbc
