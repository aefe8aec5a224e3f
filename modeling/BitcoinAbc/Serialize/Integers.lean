import Mathlib
import BitcoinAbc.Lib.LittleEndian
import BitcoinAbc.Lib.ExceptRefine
import BitcoinAbc.Net.BlockEncodings

/-!
# Integers on the wire (serialize.h)

A stream being read is the list of the bytes not read yet, and a write is the
list of bytes it appends. `ser_writedata*` and `ser_readdata*` move fixed-width
integers little-endian (`LittleEndian.bytes`, `LittleEndian.value`); on them
sit the two variable-length formats of `serialize.h`:

- `WriteCompactSize`, `ReadCompactSize`: a marker byte below `253` is the
  number itself; `253`, `254` and `255` announce 2, 4 and 8 bytes, and the
  reader throws on a number that a shorter form could have held, and, with
  `range_check`, on one above `MAX_SIZE`;
- `WriteVarInt`, `ReadVarInt`: base 128, most significant digit first, each
  digit but the last with its high bit set and one less than it says, over any
  width of unsigned integer (`BitVec w`).

The results: `ReadCompactSize_write` and `ReadCompactSize_eq_ok` for the
first, `ReadVarInt_write`, `ReadVarInt_eq_ok` and `ReadVarInt_of_le_value` for
the second, with `varIntValue` the number a varint spells, without bound.
-/

namespace BitcoinAbc

namespace Serialize

open LittleEndian

/-! ## Fixed-width integers -/

/-- `CDataStream::read` of `n` bytes: the bytes and what follows them; a
stream with fewer bytes left throws. -/
def read (n : Nat) (s : List UInt8) : Except String (List UInt8 × List UInt8) :=
  if n ≤ s.length then .ok (s.take n, s.drop n) else .error "CDataStream::read(): end of data"

/-- `ser_readdata8` to `ser_readdata64` before the conversion to their type:
the little-endian value of the next `len` bytes. -/
def serReaddata (len : Nat) (s : List UInt8) : Except String (Nat × List UInt8) := do
  let (bytes, s) ← read len s
  return (value bytes, s)

def ser_readdata8 (s : List UInt8) : Except String (UInt8 × List UInt8) := do
  let (v, s) ← serReaddata 1 s
  return (UInt8.ofNat v, s)

def ser_readdata16 (s : List UInt8) : Except String (UInt16 × List UInt8) := do
  let (v, s) ← serReaddata 2 s
  return (UInt16.ofNat v, s)

def ser_readdata32 (s : List UInt8) : Except String (UInt32 × List UInt8) := do
  let (v, s) ← serReaddata 4 s
  return (UInt32.ofNat v, s)

def ser_readdata64 (s : List UInt8) : Except String (UInt64 × List UInt8) := do
  let (v, s) ← serReaddata 8 s
  return (UInt64.ofNat v, s)

def ser_writedata8 (obj : UInt8) : List UInt8 := bytes 1 obj.toNat

def ser_writedata16 (obj : UInt16) : List UInt8 := bytes 2 obj.toNat

def ser_writedata32 (obj : UInt32) : List UInt8 := bytes 4 obj.toNat

def ser_writedata64 (obj : UInt64) : List UInt8 := bytes 8 obj.toNat

section Fixed

variable {len v : Nat} {s r : List UInt8}

theorem serReaddata_bytes (h : v < 256 ^ len) (rest : List UInt8) :
    serReaddata len (bytes len v ++ rest) = .ok (v, rest) := by
  have hlen : len ≤ (bytes len v ++ rest).length := by simp
  simp only [serReaddata, read, if_pos hlen, Except.ok_bind]
  rw [List.take_left' (length_bytes len v), List.drop_left' (length_bytes len v),
    value_bytes_of_lt h]
  rfl

/-- What a read returns is the value of the bytes it took off the front. -/
theorem serReaddata_eq_ok (h : serReaddata len s = .ok (v, r)) :
    v < 256 ^ len ∧ s = bytes len v ++ r := by
  simp only [serReaddata, read] at h
  split at h
  · rename_i hlen
    simp only [Except.ok_bind, Except.pure_eq_ok, Prod.mk.injEq] at h
    obtain ⟨rfl, rfl⟩ := h
    have htake : (s.take len).length = len := List.length_take_of_le hlen
    have hlt := value_lt (s.take len)
    have hb := bytes_value (s.take len)
    rw [htake] at hlt hb
    exact ⟨hlt, by rw [hb, List.take_append_drop]⟩
  · cases h

theorem ser_readdata8_cons (b : UInt8) (rest : List UInt8) :
    ser_readdata8 (b :: rest) = .ok (b, rest) := by
  have hb : b.toNat < 256 ^ 1 := b.toNat_lt
  have h := serReaddata_bytes hb rest
  rw [bytes_succ, bytes_zero, UInt8.ofNat_toNat, List.singleton_append] at h
  rw [ser_readdata8, h, Except.ok_bind]
  dsimp only
  rw [UInt8.ofNat_toNat]
  rfl

theorem ser_readdata8_eq_ok {b : UInt8} (h : ser_readdata8 s = .ok (b, r)) : s = b :: r := by
  simp only [ser_readdata8, Except.bind_eq_ok] at h
  obtain ⟨⟨v, r'⟩, hv, hb⟩ := h
  simp only [Except.pure_eq_ok, Prod.mk.injEq] at hb
  obtain ⟨rfl, rfl⟩ := hb
  obtain ⟨hlt, rfl⟩ := serReaddata_eq_ok hv
  simp

theorem ser_readdata16_write (x : UInt16) (rest : List UInt8) :
    ser_readdata16 (ser_writedata16 x ++ rest) = .ok (x, rest) := by
  rw [ser_readdata16, ser_writedata16, serReaddata_bytes x.toNat_lt, Except.ok_bind]
  dsimp only
  rw [UInt16.ofNat_toNat]
  rfl

theorem ser_readdata32_write (x : UInt32) (rest : List UInt8) :
    ser_readdata32 (ser_writedata32 x ++ rest) = .ok (x, rest) := by
  rw [ser_readdata32, ser_writedata32, serReaddata_bytes x.toNat_lt, Except.ok_bind]
  dsimp only
  rw [UInt32.ofNat_toNat]
  rfl

theorem ser_readdata64_write (x : UInt64) (rest : List UInt8) :
    ser_readdata64 (ser_writedata64 x ++ rest) = .ok (x, rest) := by
  rw [ser_readdata64, ser_writedata64, serReaddata_bytes x.toNat_lt, Except.ok_bind]
  dsimp only
  rw [UInt64.ofNat_toNat]
  rfl

theorem ser_readdata16_eq_ok {x : UInt16} (h : ser_readdata16 s = .ok (x, r)) :
    s = ser_writedata16 x ++ r := by
  obtain ⟨⟨v, r'⟩, hv, hx⟩ := Except.bind_eq_ok.mp h
  simp only [Except.pure_eq_ok, Prod.mk.injEq] at hx
  obtain ⟨rfl, rfl⟩ := hx
  obtain ⟨hlt, rfl⟩ := serReaddata_eq_ok hv
  rw [ser_writedata16, UInt16.toNat_ofNat', Nat.mod_eq_of_lt (hlt.trans_eq (by decide))]

theorem ser_readdata32_eq_ok {x : UInt32} (h : ser_readdata32 s = .ok (x, r)) :
    s = ser_writedata32 x ++ r := by
  obtain ⟨⟨v, r'⟩, hv, hx⟩ := Except.bind_eq_ok.mp h
  simp only [Except.pure_eq_ok, Prod.mk.injEq] at hx
  obtain ⟨rfl, rfl⟩ := hx
  obtain ⟨hlt, rfl⟩ := serReaddata_eq_ok hv
  rw [ser_writedata32, UInt32.toNat_ofNat', Nat.mod_eq_of_lt (hlt.trans_eq (by decide))]

theorem ser_readdata64_eq_ok {x : UInt64} (h : ser_readdata64 s = .ok (x, r)) :
    s = ser_writedata64 x ++ r := by
  obtain ⟨⟨v, r'⟩, hv, hx⟩ := Except.bind_eq_ok.mp h
  simp only [Except.pure_eq_ok, Prod.mk.injEq] at hx
  obtain ⟨rfl, rfl⟩ := hx
  obtain ⟨hlt, rfl⟩ := serReaddata_eq_ok hv
  rw [ser_writedata64, UInt64.toNat_ofNat', Nat.mod_eq_of_lt (hlt.trans_eq (by decide))]

end Fixed

/-! ## CompactSize -/

/-- `GetSizeOfCompactSize(nSize)`. -/
def GetSizeOfCompactSize (nSize : UInt64) : UInt32 :=
  if nSize < 253 then 1
  else if nSize ≤ 0xffff then 1 + 2
  else if nSize ≤ 0xffffffff then 1 + 4
  else 1 + 8

/-- `WriteCompactSize(os, nSize)`. -/
def WriteCompactSize (nSize : UInt64) : List UInt8 :=
  if nSize < 253 then ser_writedata8 nSize.toUInt8
  else if nSize ≤ 0xffff then ser_writedata8 253 ++ ser_writedata16 nSize.toUInt16
  else if nSize ≤ 0xffffffff then ser_writedata8 254 ++ ser_writedata32 nSize.toUInt32
  else ser_writedata8 255 ++ ser_writedata64 nSize

/-- The branches of `ReadCompactSize` on the marker byte `chSize`: the number
and the bytes after it, or the throw of a non-canonical form. -/
def readCompactSizeValue (chSize : UInt8) (is : List UInt8) : Except String (UInt64 × List UInt8) :=
  if chSize < 253 then .ok (chSize.toUInt64, is)
  else if chSize = 253 then do
    let (nSizeRet, is) ← ser_readdata16 is
    if nSizeRet.toUInt64 < 253 then throw "non-canonical ReadCompactSize()"
    return (nSizeRet.toUInt64, is)
  else if chSize = 254 then do
    let (nSizeRet, is) ← ser_readdata32 is
    if nSizeRet.toUInt64 < 0x10000 then throw "non-canonical ReadCompactSize()"
    return (nSizeRet.toUInt64, is)
  else do
    let (nSizeRet, is) ← ser_readdata64 is
    if nSizeRet < 0x100000000 then throw "non-canonical ReadCompactSize()"
    return (nSizeRet, is)

/-- `ReadCompactSize(is, range_check)`. -/
def ReadCompactSize (is : List UInt8) (range_check : Bool) : Except String (UInt64 × List UInt8) := do
  let (chSize, is) ← ser_readdata8 is
  let (nSizeRet, is) ← readCompactSizeValue chSize is
  if range_check && nSizeRet.toNat > MAX_SIZE then throw "ReadCompactSize(): size too large"
  return (nSizeRet, is)

section CompactSize

variable {n : UInt64}

theorem toUInt64_toUInt8_of_lt (h : n < 253) : n.toUInt8.toUInt64 = n := by
  rw [UInt64.lt_iff_toNat_lt] at h
  apply UInt64.toNat_inj.mp
  rw [UInt8.toNat_toUInt64, UInt64.toNat_toUInt8]
  exact Nat.mod_eq_of_lt (by simp at h; omega)

theorem toUInt64_toUInt16_of_le (h : n ≤ 0xffff) : n.toUInt16.toUInt64 = n := by
  rw [UInt64.le_iff_toNat_le] at h
  apply UInt64.toNat_inj.mp
  rw [UInt16.toNat_toUInt64, UInt64.toNat_toUInt16]
  exact Nat.mod_eq_of_lt (by simp at h; omega)

theorem toUInt64_toUInt32_of_le (h : n ≤ 0xffffffff) : n.toUInt32.toUInt64 = n := by
  rw [UInt64.le_iff_toNat_le] at h
  apply UInt64.toNat_inj.mp
  rw [UInt32.toNat_toUInt64, UInt64.toNat_toUInt32]
  exact Nat.mod_eq_of_lt (by simp at h; omega)

theorem ser_writedata8_eq (b : UInt8) : ser_writedata8 b = [b] := by
  rw [ser_writedata8, bytes_succ, bytes_zero, UInt8.ofNat_toNat]

/-- Each form `WriteCompactSize` writes is the one its marker byte announces:
the branch of `ReadCompactSize` for that marker reads the number back. -/
theorem readCompactSizeValue_write (n : UInt64) (rest : List UInt8) :
    ∃ c tail, WriteCompactSize n = c :: tail ∧ readCompactSizeValue c (tail ++ rest) = .ok (n, rest) := by
  unfold WriteCompactSize
  split_ifs with h1 h2 h3
  · -- one byte: the marker is the number
    refine ⟨n.toUInt8, [], ser_writedata8_eq _, ?_⟩
    have hc : n.toUInt8 < 253 := by
      rw [UInt64.lt_iff_toNat_lt] at h1
      rw [UInt8.lt_iff_toNat_lt, UInt64.toNat_toUInt8]
      simp only [UInt64.reduceToNat] at h1
      simp only [UInt8.reduceToNat]
      omega
    rw [readCompactSizeValue, if_pos hc, List.nil_append, toUInt64_toUInt8_of_lt h1]
  · refine ⟨253, ser_writedata16 n.toUInt16, by rw [ser_writedata8_eq]; rfl, ?_⟩
    rw [readCompactSizeValue, if_neg (by decide), if_pos rfl, ser_readdata16_write, Except.ok_bind]
    dsimp only
    rw [toUInt64_toUInt16_of_le h2, if_neg h1]
    rfl
  · refine ⟨254, ser_writedata32 n.toUInt32, by rw [ser_writedata8_eq]; rfl, ?_⟩
    rw [readCompactSizeValue, if_neg (by decide), if_neg (by decide), if_pos rfl,
      ser_readdata32_write, Except.ok_bind]
    dsimp only
    rw [toUInt64_toUInt32_of_le h3, if_neg (fun h => h2 (by
      rw [UInt64.lt_iff_toNat_lt] at h
      rw [UInt64.le_iff_toNat_le]
      simp only [UInt64.reduceToNat] at h ⊢
      omega))]
    rfl
  · refine ⟨255, ser_writedata64 n, by rw [ser_writedata8_eq]; rfl, ?_⟩
    rw [readCompactSizeValue, if_neg (by decide), if_neg (by decide), if_neg (by decide),
      ser_readdata64_write, Except.ok_bind]
    dsimp only
    rw [if_neg (fun h => h3 (by
      rw [UInt64.lt_iff_toNat_lt] at h
      rw [UInt64.le_iff_toNat_le]
      simp only [UInt64.reduceToNat] at h ⊢
      omega))]
    rfl

/-- Reading what `WriteCompactSize` wrote gives the number back, and the bytes
after it, unless `range_check` is on and the number is above `MAX_SIZE`. -/
theorem ReadCompactSize_write (n : UInt64) (rest : List UInt8) (range_check : Bool) :
    ReadCompactSize (WriteCompactSize n ++ rest) range_check =
      if range_check && n.toNat > MAX_SIZE then .error "ReadCompactSize(): size too large"
      else .ok (n, rest) := by
  obtain ⟨c, tail, hw, hv⟩ := readCompactSizeValue_write n rest
  rw [hw, List.cons_append, ReadCompactSize, ser_readdata8_cons, Except.ok_bind]
  dsimp only
  rw [hv, Except.ok_bind]
  dsimp only
  split <;> rfl

/-- A branch of `ReadCompactSize` accepts only the form `WriteCompactSize`
writes. -/
theorem readCompactSizeValue_eq_ok {c : UInt8} {is r : List UInt8}
    (h : readCompactSizeValue c is = .ok (n, r)) : c :: is = WriteCompactSize n ++ r := by
  unfold readCompactSizeValue at h
  split_ifs at h with h1 h2 h3
  · simp only [Except.ok.injEq, Prod.mk.injEq] at h
    obtain ⟨rfl, rfl⟩ := h
    have hlt : c.toUInt64 < 253 := by
      rw [UInt64.lt_iff_toNat_lt, UInt8.toNat_toUInt64]
      exact UInt8.lt_iff_toNat_lt.mp h1
    rw [WriteCompactSize, if_pos hlt, ser_writedata8_eq, UInt8.toUInt8_toUInt64]
    rfl
  · obtain ⟨⟨x, is'⟩, hx, h⟩ := Except.bind_eq_ok.mp h
    obtain ⟨hge, h⟩ := Except.ite_throw_bind_eq_ok h
    simp only [Except.pure_eq_ok, Prod.mk.injEq] at h
    obtain ⟨rfl, rfl⟩ := h
    have hle : x.toUInt64 ≤ 0xffff := by
      rw [UInt64.le_iff_toNat_le, UInt16.toNat_toUInt64]
      have := x.toNat_lt
      simp only [UInt64.reduceToNat]
      omega
    rw [WriteCompactSize, if_neg hge, if_pos hle, ser_writedata8_eq, UInt16.toUInt16_toUInt64,
      ser_readdata16_eq_ok hx, h2]
    rfl
  · obtain ⟨⟨x, is'⟩, hx, h⟩ := Except.bind_eq_ok.mp h
    obtain ⟨hge, h⟩ := Except.ite_throw_bind_eq_ok h
    simp only [Except.pure_eq_ok, Prod.mk.injEq] at h
    obtain ⟨rfl, rfl⟩ := h
    rw [UInt64.lt_iff_toNat_lt, UInt32.toNat_toUInt64] at hge
    have hx32 := x.toNat_lt
    simp only [UInt64.reduceToNat] at hge
    have hlt : ¬ x.toUInt64 < 253 := by
      rw [UInt64.lt_iff_toNat_lt, UInt32.toNat_toUInt64]
      simp only [UInt64.reduceToNat]
      omega
    have hgt : ¬ x.toUInt64 ≤ 0xffff := by
      rw [UInt64.le_iff_toNat_le, UInt32.toNat_toUInt64]
      simp only [UInt64.reduceToNat]
      omega
    have hle : x.toUInt64 ≤ 0xffffffff := by
      rw [UInt64.le_iff_toNat_le, UInt32.toNat_toUInt64]
      simp only [UInt64.reduceToNat]
      omega
    rw [WriteCompactSize, if_neg hlt, if_neg hgt, if_pos hle, ser_writedata8_eq,
      UInt32.toUInt32_toUInt64, ser_readdata32_eq_ok hx, h3]
    rfl
  · obtain ⟨⟨x, is'⟩, hx, h⟩ := Except.bind_eq_ok.mp h
    obtain ⟨hge, h⟩ := Except.ite_throw_bind_eq_ok h
    simp only [Except.pure_eq_ok, Prod.mk.injEq] at h
    obtain ⟨rfl, rfl⟩ := h
    rw [UInt64.lt_iff_toNat_lt] at hge
    simp only [UInt64.reduceToNat] at hge
    have hlt : ¬ x < 253 := by
      rw [UInt64.lt_iff_toNat_lt]
      simp only [UInt64.reduceToNat]
      omega
    have hgt : ¬ x ≤ 0xffff := by
      rw [UInt64.le_iff_toNat_le]
      simp only [UInt64.reduceToNat]
      omega
    have hgt' : ¬ x ≤ 0xffffffff := by
      rw [UInt64.le_iff_toNat_le]
      simp only [UInt64.reduceToNat]
      omega
    have hc : c = 255 := by
      apply UInt8.toNat_inj.mp
      have := c.toNat_lt
      rw [UInt8.lt_iff_toNat_lt] at h1
      have h2' : c.toNat ≠ 253 := fun e => h2 (UInt8.toNat_inj.mp e)
      have h3' : c.toNat ≠ 254 := fun e => h3 (UInt8.toNat_inj.mp e)
      simp only [UInt8.reduceToNat] at h1 ⊢
      omega
    rw [WriteCompactSize, if_neg hlt, if_neg hgt, if_neg hgt', ser_writedata8_eq,
      ser_readdata64_eq_ok hx, hc]
    rfl

/-- What `ReadCompactSize` accepts is canonical: the bytes it consumed are
exactly what `WriteCompactSize` writes for the number it returns. -/
theorem ReadCompactSize_eq_ok {b r : List UInt8} {range_check : Bool}
    (h : ReadCompactSize b range_check = .ok (n, r)) : b = WriteCompactSize n ++ r := by
  obtain ⟨⟨c, is⟩, hc, h⟩ := Except.bind_eq_ok.mp h
  obtain ⟨⟨m, is'⟩, hm, h⟩ := Except.bind_eq_ok.mp h
  obtain ⟨-, h⟩ := Except.ite_throw_bind_eq_ok h
  simp only [Except.pure_eq_ok, Prod.mk.injEq] at h
  obtain ⟨rfl, rfl⟩ := h
  rw [ser_readdata8_eq_ok hc]
  exact readCompactSizeValue_eq_ok hm

theorem length_WriteCompactSize (n : UInt64) :
    (WriteCompactSize n).length = (GetSizeOfCompactSize n).toNat := by
  unfold WriteCompactSize GetSizeOfCompactSize
  split_ifs <;> simp [ser_writedata8, ser_writedata16, ser_writedata32, ser_writedata64]

/-- CompactSize is a canonical encoding of every `uint64_t`: reading what was
written gives the number back after exactly `GetSizeOfCompactSize` bytes, and
with the range check exactly the numbers up to `MAX_SIZE`; and every byte
string a read accepts starts with the encoding of what it returned. -/
theorem ReadCompactSize_canonical (n : UInt64) (rest : List UInt8) :
    ReadCompactSize (WriteCompactSize n ++ rest) false = .ok (n, rest) ∧
      (WriteCompactSize n).length = (GetSizeOfCompactSize n).toNat ∧
      (ReadCompactSize (WriteCompactSize n ++ rest) true = .ok (n, rest) ↔ n.toNat ≤ MAX_SIZE) ∧
      (MAX_SIZE < n.toNat →
        ReadCompactSize (WriteCompactSize n ++ rest) true = .error "ReadCompactSize(): size too large") ∧
      ∀ (b r : List UInt8) (range_check : Bool) (m : UInt64),
        ReadCompactSize b range_check = .ok (m, r) → b = WriteCompactSize m ++ r := by
  refine ⟨?_, length_WriteCompactSize n, ?_, ?_, fun b r range_check m h => ReadCompactSize_eq_ok h⟩
  · rw [ReadCompactSize_write]
    rfl
  · rw [ReadCompactSize_write]
    by_cases hn : MAX_SIZE < n.toNat
    · rw [if_pos (by simpa using hn)]
      exact ⟨fun h => (nomatch h), fun h => absurd h (by omega)⟩
    · rw [if_neg (by simpa using hn)]
      exact ⟨fun _ => by omega, fun _ => rfl⟩
  · intro hn
    rw [ReadCompactSize_write, if_pos (by simpa using hn)]

/-- `0x02000001`, one past `MAX_SIZE`, is written in five bytes, read back
without the range check and refused with it; and the bytes `fd 2c 01 07`,
which read as `300`, are its encoding followed by `07`. -/
theorem ReadCompactSize_canonical_pastMaxSize :
    WriteCompactSize 0x02000001 = [254, 1, 0, 0, 2] ∧
      ReadCompactSize (WriteCompactSize 0x02000001 ++ [7]) false = .ok (0x02000001, [7]) ∧
      ReadCompactSize (WriteCompactSize 0x02000001 ++ [7]) true = .error "ReadCompactSize(): size too large" ∧
      [0xfd, 0x2c, 0x01, 0x07] = WriteCompactSize 300 ++ [7] :=
  ⟨by decide, (ReadCompactSize_canonical 0x02000001 [7]).1,
    (ReadCompactSize_canonical 0x02000001 [7]).2.2.2.1 (by decide),
    (ReadCompactSize_canonical 0x02000001 [7]).2.2.2.2 _ _ true 300 (by decide)⟩

end CompactSize

/-! ## VarInt -/

section Digits

variable {w : Nat} {n : BitVec w}

/-- Above `0x7F` a number is at least `128`, at every width: below seven bits
no number is above `0x7F`, which is then all ones. -/
theorem le_toNat_of_not_le_0x7F (h : ¬ n ≤ 0x7F) : 128 ≤ n.toNat := by
  rw [BitVec.le_def, BitVec.ofNat_eq_ofNat, BitVec.toNat_ofNat] at h
  have hn := n.isLt
  by_cases hw : 7 ≤ w
  · have h127 : 127 < 2 ^ w := lt_of_lt_of_le (by decide) (Nat.pow_le_pow_right (by decide) hw)
    rw [Nat.mod_eq_of_lt h127] at h
    omega
  · interval_cases w <;> simp only [Nat.reducePow, Nat.reduceMod] at h hn <;> omega

/-- The next number of the digit loops, `(n >> 7) - 1`, when `n` is at least
`128`. -/
theorem toNat_shiftRight_sub_one (h : 128 ≤ n.toNat) :
    ((n >>> 7) - 1).toNat = n.toNat / 128 - 1 := by
  have hn := n.isLt
  have hpos : 0 < w := by
    rcases Nat.eq_zero_or_pos w with rfl | hw
    · simp at hn; omega
    · exact hw
  have hshift : (n >>> 7).toNat = n.toNat / 128 := by
    rw [BitVec.toNat_ushiftRight, Nat.shiftRight_eq_div_pow]
  rw [BitVec.toNat_sub, BitVec.ofNat_eq_ofNat, BitVec.toNat_one hpos, hshift]
  have hq : n.toNat / 128 < 2 ^ w := lt_of_le_of_lt (Nat.div_le_self _ 128) hn
  have hq1 : 1 ≤ n.toNat / 128 := by omega
  rw [show 2 ^ w - 1 + n.toNat / 128 = (n.toNat / 128 - 1) + 2 ^ w by omega, Nat.add_mod_right,
    Nat.mod_eq_of_lt (by omega)]

theorem toNat_digitStep_lt (h : ¬ n ≤ 0x7F) : ((n >>> 7) - 1).toNat < n.toNat := by
  have h128 := le_toNat_of_not_le_0x7F h
  rw [toNat_shiftRight_sub_one h128]
  omega

end Digits

/-- The loop of `GetSizeOfVarInt<I>(n)`, for the `w`-bit unsigned `I`, with
the count `nRet` so far. -/
def getSizeOfVarIntLoop {w : Nat} (n : BitVec w) (nRet : Nat) : Nat :=
  if h : n ≤ 0x7F then nRet + 1 else getSizeOfVarIntLoop ((n >>> 7) - 1) (nRet + 1)
termination_by n.toNat
decreasing_by exact toNat_digitStep_lt h

/-- `GetSizeOfVarInt<I>(n)`. -/
def GetSizeOfVarInt {w : Nat} (n : BitVec w) : Nat := getSizeOfVarIntLoop n 0

/-- The first loop of `WriteVarInt<I>(os, n)`: the bytes it stores in
`tmp[len]`, `tmp[len + 1]`, …, lowest digit first, all but the first with the
high bit set. -/
def writeVarIntTmp {w : Nat} (n : BitVec w) (len : Nat) : List UInt8 :=
  let tmp := ((n &&& 0x7F) ||| (if len ≠ 0 then 0x80 else 0x00)).toNat.toUInt8
  if h : n ≤ 0x7F then [tmp] else tmp :: writeVarIntTmp ((n >>> 7) - 1) (len + 1)
termination_by n.toNat
decreasing_by exact toNat_digitStep_lt h

/-- `WriteVarInt<I>(os, n)`: the second loop writes `tmp[len]` down to
`tmp[0]`. -/
def WriteVarInt {w : Nat} (n : BitVec w) : List UInt8 := (writeVarIntTmp n 0).reverse

/-- The loop of `ReadVarInt<I>(is)`, with `n` the number read so far. Before
each shift it checks that no bit would fall off the top, and before each
increment that it cannot wrap. -/
def readVarIntLoop {w : Nat} (n : BitVec w) : List UInt8 → Except String (BitVec w × List UInt8)
  | [] => throw "CDataStream::read(): end of data"
  | chData :: is =>
    if n > BitVec.allOnes w >>> 7 then throw "ReadVarInt(): size too large"
    else
      let n := (n <<< 7) ||| BitVec.ofNat w (chData &&& 0x7F).toNat
      if chData &&& 0x80 = 0 then .ok (n, is)
      else if n = BitVec.allOnes w then throw "ReadVarInt(): size too large"
      else readVarIntLoop (n + 1) is

/-- `ReadVarInt<I>(is)`. -/
def ReadVarInt {w : Nat} (is : List UInt8) : Except String (BitVec w × List UInt8) :=
  readVarIntLoop 0 is

/-- The number the varint at the front of `bs` spells, as the comment above
`GetSizeOfVarInt` defines the format and without any bound, with `acc` the
number its earlier digits spelled: a digit with the high bit set is not the
last, and counts one more than its low seven bits. -/
def varIntValue (acc : Nat) : List UInt8 → Option (Nat × List UInt8)
  | [] => none
  | b :: bs =>
    if b.toNat < 128 then some (acc * 128 + b.toNat, bs)
    else varIntValue (acc * 128 + (b.toNat - 128) + 1) bs

/-- The number a run of non-final digits spells, after `acc`. -/
def contValue (acc : Nat) (cs : List UInt8) : Nat :=
  cs.foldl (fun a c => a * 128 + (c.toNat - 128) + 1) acc

section VarInt

variable {w : Nat}

@[simp] theorem contValue_nil (acc : Nat) : contValue acc [] = acc := rfl

theorem contValue_append_singleton (acc : Nat) (cs : List UInt8) (c : UInt8) :
    contValue acc (cs ++ [c]) = contValue acc cs * 128 + (c.toNat - 128) + 1 := by
  rw [contValue, List.foldl_append]
  rfl

theorem varIntValue_append {acc : Nat} {cs : List UInt8} (hcs : ∀ c ∈ cs, 128 ≤ c.toNat)
    (bs : List UInt8) : varIntValue acc (cs ++ bs) = varIntValue (contValue acc cs) bs := by
  induction cs generalizing acc with
  | nil => rfl
  | cons c cs ih =>
    have hc := hcs c List.mem_cons_self
    rw [List.cons_append, varIntValue, if_neg (by omega),
      ih (fun c' hc' => hcs c' (List.mem_cons_of_mem c hc'))]
    rfl

/-- A varint spells at least `128` times what came before its first digit. -/
theorem le_varIntValue : ∀ {acc : Nat} {bs r : List UInt8} {v : Nat},
    varIntValue acc bs = some (v, r) → acc * 128 ≤ v
  | _, [], _, _, h => (nomatch h)
  | acc, b :: bs, r, v, h => by
    rw [varIntValue] at h
    split at h
    · cases h
      omega
    · have := le_varIntValue h
      have h1 : acc * 128 ≤ acc * 128 * 128 := Nat.le_mul_of_pos_right _ (by decide)
      calc acc * 128 ≤ (acc * 128 + (b.toNat - 128) + 1) * 128 := by omega
        _ ≤ v := this

/-- A varint is non-final digits, then a final one. -/
theorem varIntValue_eq_some : ∀ {acc : Nat} {bs r : List UInt8} {v : Nat},
    varIntValue acc bs = some (v, r) →
      ∃ cs t, bs = cs ++ t :: r ∧ (∀ c ∈ cs, 128 ≤ c.toNat) ∧ t.toNat < 128 ∧
        v = contValue acc cs * 128 + t.toNat
  | _, [], _, _, h => (nomatch h)
  | acc, b :: bs, r, v, h => by
    rw [varIntValue] at h
    split at h
    · rename_i hb
      simp only [Option.some.injEq, Prod.mk.injEq] at h
      obtain ⟨rfl, rfl⟩ := h
      exact ⟨[], b, rfl, by simp, hb, rfl⟩
    · rename_i hb
      obtain ⟨cs, t, rfl, hcs, ht, rfl⟩ := varIntValue_eq_some h
      refine ⟨b :: cs, t, rfl, ?_, ht, rfl⟩
      intro c hc
      rcases List.mem_cons.mp hc with rfl | hc
      · omega
      · exact hcs c hc

theorem and_0x80_eq_zero_iff (b : UInt8) : b &&& 0x80 = 0 ↔ b.toNat < 128 := by
  have hb := b.toNat_lt
  have hand : (b &&& 0x80).toNat = (b.toNat.testBit 7).toNat * 2 ^ 7 := by
    rw [UInt8.toNat_and, show (0x80 : UInt8).toNat = 2 ^ 7 from rfl, Nat.and_two_pow]
  rw [← UInt8.toNat_inj, hand, show (0 : UInt8).toNat = 0 from rfl, Nat.testBit_eq_decide_div_mod_eq]
  constructor
  · intro h0
    by_contra hge
    have h1 : b.toNat / 2 ^ 7 % 2 = 1 := by omega
    rw [h1] at h0
    exact absurd h0 (by decide)
  · intro hlt
    have h0 : b.toNat / 2 ^ 7 % 2 = 0 := by omega
    rw [h0]
    rfl

section Width

variable (hw : 8 ≤ w)
include hw

theorem toNat_0x80 : (0x80 : BitVec w).toNat = 128 := by
  rw [BitVec.ofNat_eq_ofNat, BitVec.toNat_ofNat]
  exact Nat.mod_eq_of_lt (lt_of_lt_of_le (by decide) (Nat.pow_le_pow_right (by decide) hw))

theorem toNat_and_0x7F (n : BitVec w) : (n &&& 0x7F).toNat = n.toNat % 128 := by
  have h127 : (0x7F : BitVec w).toNat = 2 ^ 7 - 1 := by
    rw [BitVec.ofNat_eq_ofNat, BitVec.toNat_ofNat]
    exact Nat.mod_eq_of_lt (lt_of_lt_of_le (by decide) (Nat.pow_le_pow_right (by decide) hw))
  rw [BitVec.toNat_and, h127, Nat.and_two_pow_sub_one_eq_mod]

theorem le_0x7F_iff {n : BitVec w} : n ≤ 0x7F ↔ n.toNat ≤ 127 := by
  rw [BitVec.le_def, BitVec.ofNat_eq_ofNat, BitVec.toNat_ofNat,
    Nat.mod_eq_of_lt (lt_of_lt_of_le (by decide) (Nat.pow_le_pow_right (by decide) hw))]

theorem toNat_le_of_le_0x7F {n : BitVec w} (h : n ≤ 0x7F) : n.toNat ≤ 127 :=
  (le_0x7F_iff hw).mp h

/-- The byte `tmp[len]`: the low seven bits of the number, with the high bit
set past the first. -/
theorem toNat_tmp (n : BitVec w) (len : Nat) :
    (((n &&& 0x7F) ||| (if len ≠ 0 then 0x80 else 0x00)).toNat.toUInt8).toNat =
      n.toNat % 128 + if len ≠ 0 then 128 else 0 := by
  have hlow : n.toNat % 128 < 2 ^ 7 := Nat.mod_lt _ (by decide)
  have hval : ((n &&& 0x7F) ||| (if len ≠ 0 then 0x80 else 0x00)).toNat =
      n.toNat % 128 + if len ≠ 0 then 128 else 0 := by
    rw [BitVec.toNat_or, toNat_and_0x7F hw]
    split
    · rw [toNat_0x80 hw]
      exact Nat.or_two_pow_eq_add_of_lt hlow
    · simp
  rw [hval, Nat.toUInt8, UInt8.toNat_ofNat']
  exact Nat.mod_eq_of_lt (by split <;> omega)

/-- The bytes stored after the first have the high bit set, and, read from
the last stored, spell the number plus one. The induction follows the loop. -/
theorem writeVarIntTmp_cont (n : BitVec w) (len : Nat) (hlen : len ≠ 0) :
    (∀ c ∈ writeVarIntTmp n len, 128 ≤ c.toNat) ∧
      contValue 0 (writeVarIntTmp n len).reverse = n.toNat + 1 := by
  induction n, len using writeVarIntTmp.induct with
  | case1 n len h =>
    have ht := toNat_tmp hw n len
    have hn := toNat_le_of_le_0x7F hw h
    rw [writeVarIntTmp, dif_pos h]
    refine ⟨?_, ?_⟩
    · intro c hc
      rw [List.mem_singleton.mp hc, ht, if_pos hlen]
      omega
    · rw [List.reverse_singleton, ← List.nil_append [_], contValue_append_singleton, ht, if_pos hlen,
        contValue_nil]
      omega
  | case2 n len h ih =>
    obtain ⟨hcs, hval⟩ := ih (Nat.succ_ne_zero len)
    have ht := toNat_tmp hw n len
    have h128 := le_toNat_of_not_le_0x7F h
    rw [toNat_shiftRight_sub_one h128] at hval
    rw [writeVarIntTmp, dif_neg h]
    refine ⟨?_, ?_⟩
    · intro c hc
      rcases List.mem_cons.mp hc with rfl | hc
      · rw [ht, if_pos hlen]
        omega
      · exact hcs c hc
    · rw [List.reverse_cons, contValue_append_singleton, hval, ht, if_pos hlen]
      omega

/-- Decoding what `WriteVarInt` wrote gives the number back. -/
theorem varIntValue_WriteVarInt (n : BitVec w) (rest : List UInt8) :
    varIntValue 0 (WriteVarInt n ++ rest) = some (n.toNat, rest) := by
  have ht := toNat_tmp hw n 0
  simp only [ne_eq, not_true_eq_false, if_false, Nat.add_zero] at ht
  rw [WriteVarInt, writeVarIntTmp]
  simp only [ne_eq, not_true_eq_false, if_false]
  split
  · rename_i h
    have hn := toNat_le_of_le_0x7F hw h
    rw [List.reverse_singleton, List.singleton_append, varIntValue, if_pos (by omega), ht]
    simp only [Nat.zero_mul, Nat.zero_add]
    rw [Nat.mod_eq_of_lt (by omega)]
  · rename_i h
    obtain ⟨hcs, hval⟩ := writeVarIntTmp_cont hw ((n >>> 7) - 1) 1 (by decide)
    have h128 := le_toNat_of_not_le_0x7F h
    rw [toNat_shiftRight_sub_one h128] at hval
    have hmem : ∀ c ∈ (writeVarIntTmp ((n >>> 7) - 1) 1).reverse, 128 ≤ c.toNat :=
      fun c hc => hcs c (List.mem_reverse.mp hc)
    rw [List.reverse_cons, List.append_assoc, varIntValue_append hmem, hval, List.singleton_append,
      varIntValue, if_pos (by omega), ht]
    congr 2
    omega

/-- The bytes the first loop of `WriteVarInt` stores, read from the last one
stored, are the non-final digits `cs` and then the final digit `d` (with the
high bit past `tmp[0]`), when the number is what they spell. The induction is
on `cs` from its last digit, the next the loop stores. -/
theorem writeVarIntTmp_of_contValue (cs : List UInt8) (hcs : ∀ c ∈ cs, 128 ≤ c.toNat) :
    ∀ (d len : Nat) (m : BitVec w), d < 128 → m.toNat = contValue 0 cs * 128 + d →
      (writeVarIntTmp m len).reverse = cs ++ [UInt8.ofNat (d + if len ≠ 0 then 128 else 0)] := by
  induction cs using List.reverseRecOn with
  | nil =>
    intro d len m hd hm
    rw [contValue_nil, Nat.zero_mul, Nat.zero_add] at hm
    have hle : m ≤ 0x7F := by
      rw [le_0x7F_iff hw]
      omega
    rw [writeVarIntTmp, dif_pos hle, List.reverse_singleton, List.nil_append]
    congr 1
    apply UInt8.toNat_inj.mp
    rw [toNat_tmp hw, UInt8.toNat_ofNat', hm, Nat.mod_eq_of_lt hd]
    exact (Nat.mod_eq_of_lt (by split <;> omega)).symm
  | append_singleton cs c ih =>
    intro d len m hd hm
    have hc : 128 ≤ c.toNat := hcs c (List.mem_append_right cs List.mem_cons_self)
    have hc256 := c.toNat_lt
    rw [contValue_append_singleton] at hm
    have h128 : 128 ≤ m.toNat := by
      rw [hm]
      omega
    have hnle : ¬ m ≤ 0x7F := fun h => by
      have := toNat_le_of_le_0x7F hw h
      omega
    have hnext : ((m >>> 7) - 1).toNat = contValue 0 cs * 128 + (c.toNat - 128) := by
      rw [toNat_shiftRight_sub_one h128, hm]
      omega
    have hlast : UInt8.ofNat (c.toNat - 128 + if len + 1 ≠ 0 then 128 else 0) = c := by
      rw [if_pos (Nat.succ_ne_zero len), Nat.sub_add_cancel hc, UInt8.ofNat_toNat]
    have htmp : ((m &&& 0x7F) ||| (if len ≠ 0 then 0x80 else 0x00)).toNat.toUInt8 =
        UInt8.ofNat (d + if len ≠ 0 then 128 else 0) := by
      apply UInt8.toNat_inj.mp
      rw [toNat_tmp hw, UInt8.toNat_ofNat', hm]
      have hmod : ((contValue 0 cs * 128 + (c.toNat - 128) + 1) * 128 + d) % 128 = d := by omega
      rw [hmod]
      exact (Nat.mod_eq_of_lt (by split <;> omega)).symm
    rw [writeVarIntTmp, dif_neg hnle, List.reverse_cons,
      ih (fun c' hc' => hcs c' (List.mem_append_left _ hc')) (c.toNat - 128) (len + 1) _ (by omega)
        hnext, hlast, htmp, List.append_assoc, List.singleton_append]

/-- What spells a number below `2 ^ w` is what `WriteVarInt` writes for it. -/
theorem WriteVarInt_of_varIntValue {b r : List UInt8} {v : Nat} (h : varIntValue 0 b = some (v, r))
    (hv : v < 2 ^ w) : b = WriteVarInt (BitVec.ofNat w v) ++ r := by
  obtain ⟨cs, t, rfl, hcs, ht, rfl⟩ := varIntValue_eq_some h
  have hm : (BitVec.ofNat w (contValue 0 cs * 128 + t.toNat)).toNat = contValue 0 cs * 128 + t.toNat := by
    rw [BitVec.toNat_ofNat, Nat.mod_eq_of_lt hv]
  rw [WriteVarInt, writeVarIntTmp_of_contValue hw cs hcs t.toNat 0 _ ht hm, if_neg (fun h => h rfl),
    Nat.add_zero, UInt8.ofNat_toNat, List.append_assoc, List.singleton_append]

/-- `ReadVarInt`'s loop reads exactly the varints whose number fits in `w`
bits, and reads them right: its guards throw where the number would leave
`w` bits. The induction is on the stream. -/
theorem readVarIntLoop_eq_ok : ∀ (is : List UInt8) (n m : BitVec w) (r : List UInt8),
    readVarIntLoop n is = .ok (m, r) ↔ varIntValue n.toNat is = some (m.toNat, r)
  | [], n, m, r => ⟨fun h => (nomatch h), fun h => (nomatch h)⟩
  | chData :: is, n, m, r => by
    have hm := m.isLt
    have hW : 2 ^ w = 2 ^ (w - 7) * 128 := by
      rw [show (128 : Nat) = 2 ^ 7 from rfl, ← Nat.pow_add, Nat.sub_add_cancel (by omega)]
    have hmax : (BitVec.allOnes w >>> 7).toNat = 2 ^ (w - 7) - 1 := by
      rw [BitVec.toNat_ushiftRight, BitVec.toNat_allOnes, Nat.shiftRight_eq_div_pow, hW]
      omega
    have hd := chData.toNat_lt
    rw [readVarIntLoop]
    split
    · rename_i hbig
      -- the shift would drop bits: the number is at least `2 ^ w`
      rw [gt_iff_lt, BitVec.lt_def, hmax] at hbig
      refine ⟨fun h => (nomatch h), fun h => ?_⟩
      have := le_varIntValue h
      omega
    · rename_i hsmall
      rw [gt_iff_lt, BitVec.lt_def, hmax] at hsmall
      have hn1 : ((n <<< 7) ||| BitVec.ofNat w (chData &&& 0x7F).toNat).toNat =
          n.toNat * 128 + chData.toNat % 128 := by
        have hlow : (BitVec.ofNat w (chData &&& 0x7F).toNat).toNat = chData.toNat % 2 ^ 7 := by
          rw [BitVec.toNat_ofNat, UInt8.toNat_and, show (0x7F : UInt8).toNat = 2 ^ 7 - 1 from rfl,
            Nat.and_two_pow_sub_one_eq_mod]
          exact Nat.mod_eq_of_lt (by omega)
        rw [BitVec.toNat_or, BitVec.toNat_shiftLeft, hlow, Nat.shiftLeft_eq, Nat.mod_eq_of_lt (by omega),
          Nat.mul_comm, ← Nat.two_pow_add_eq_or_of_lt (Nat.mod_lt _ (by decide))]
      dsimp only
      split
      · rename_i hfin
        have hlt := (and_0x80_eq_zero_iff chData).mp hfin
        rw [varIntValue, if_pos hlt, Except.ok.injEq, Option.some.injEq, Prod.mk.injEq,
          Prod.mk.injEq, ← BitVec.toNat_inj, hn1, Nat.mod_eq_of_lt hlt]
      · rename_i hcont
        have hge : ¬ chData.toNat < 128 := fun h => hcont ((and_0x80_eq_zero_iff chData).mpr h)
        rw [varIntValue, if_neg hge]
        split
        · rename_i hall
          -- the increment would wrap: the number is at least `2 ^ w`
          have hv := congrArg BitVec.toNat hall
          rw [hn1, BitVec.toNat_allOnes] at hv
          refine ⟨fun h => (nomatch h), fun h => ?_⟩
          have := le_varIntValue h
          have hpos : 1 ≤ 2 ^ w := Nat.one_le_two_pow
          omega
        · rename_i hne
          have hlt : n.toNat * 128 + chData.toNat % 128 < 2 ^ w - 1 := by
            have hv : ((n <<< 7) ||| BitVec.ofNat w (chData &&& 0x7F).toNat).toNat ≠
                (BitVec.allOnes w).toNat := fun h => hne (BitVec.toNat_inj.mp h)
            rw [hn1, BitVec.toNat_allOnes] at hv
            omega
          have hsucc : (((n <<< 7) ||| BitVec.ofNat w (chData &&& 0x7F).toNat) + 1).toNat =
              n.toNat * 128 + (chData.toNat - 128) + 1 := by
            rw [BitVec.toNat_add, hn1, BitVec.ofNat_eq_ofNat, BitVec.toNat_ofNat,
              Nat.mod_eq_of_lt (show 1 < 2 ^ w by omega), Nat.mod_eq_of_lt (by omega)]
            omega
          rw [readVarIntLoop_eq_ok is, hsucc]

/-- `WriteVarInt` then `ReadVarInt` gives the number back. -/
theorem ReadVarInt_write (n : BitVec w) (rest : List UInt8) :
    ReadVarInt (WriteVarInt n ++ rest) = .ok (n, rest) := by
  rw [ReadVarInt, readVarIntLoop_eq_ok hw, BitVec.ofNat_eq_ofNat, BitVec.toNat_ofNat, Nat.zero_mod]
  exact varIntValue_WriteVarInt hw n rest

/-- What `ReadVarInt` accepts is canonical: the bytes it consumed are what
`WriteVarInt` writes for the number it returns. -/
theorem ReadVarInt_eq_ok {b r : List UInt8} {m : BitVec w} (h : ReadVarInt b = .ok (m, r)) :
    b = WriteVarInt m ++ r := by
  rw [ReadVarInt, readVarIntLoop_eq_ok hw, BitVec.ofNat_eq_ofNat, BitVec.toNat_ofNat,
    Nat.zero_mod] at h
  have hb := WriteVarInt_of_varIntValue hw h m.isLt
  rwa [BitVec.ofNat_toNat, BitVec.setWidth_eq] at hb

/-- A varint whose number does not fit in `w` bits makes `ReadVarInt` throw. -/
theorem ReadVarInt_of_le_value {b r : List UInt8} {v : Nat} (h : varIntValue 0 b = some (v, r))
    (hv : 2 ^ w ≤ v) : ∃ e, ReadVarInt (w := w) b = .error e := by
  rcases hR : ReadVarInt (w := w) b with e | ⟨m, r'⟩
  · exact ⟨e, rfl⟩
  · rw [ReadVarInt, readVarIntLoop_eq_ok hw, BitVec.ofNat_eq_ofNat, BitVec.toNat_ofNat,
      Nat.zero_mod, h, Option.some.injEq, Prod.mk.injEq] at hR
    have := m.isLt
    omega

end Width

/-- `GetSizeOfVarInt`'s loop counts the bytes `WriteVarInt`'s first loop
stores. -/
theorem getSizeOfVarIntLoop_eq (n : BitVec w) (nRet len : Nat) :
    getSizeOfVarIntLoop n nRet = nRet + (writeVarIntTmp n len).length := by
  induction n, nRet using getSizeOfVarIntLoop.induct generalizing len with
  | case1 n nRet h =>
    rw [getSizeOfVarIntLoop, dif_pos h, writeVarIntTmp, dif_pos h, List.length_singleton]
  | case2 n nRet h ih =>
    rw [getSizeOfVarIntLoop, dif_neg h, writeVarIntTmp, dif_neg h, List.length_cons, ih (len + 1)]
    omega

/-- Each stored byte past the first takes seven more bits of the number. -/
theorem pow_length_writeVarIntTmp_le (n : BitVec w) (len : Nat) :
    128 ^ ((writeVarIntTmp n len).length - 1) ≤ max n.toNat 1 := by
  induction n, len using writeVarIntTmp.induct with
  | case1 n len h =>
    rw [writeVarIntTmp, dif_pos h, List.length_singleton, Nat.sub_self, Nat.pow_zero]
    exact le_max_right _ _
  | case2 n len h ih =>
    have h128 := le_toNat_of_not_le_0x7F h
    rw [toNat_shiftRight_sub_one h128] at ih
    rw [writeVarIntTmp, dif_neg h, List.length_cons, Nat.add_sub_cancel]
    rcases hl : (writeVarIntTmp ((n >>> 7) - 1) (len + 1)).length with _ | k
    · rw [Nat.pow_zero]
      exact le_trans (by omega) (le_max_left _ _)
    · rw [hl, Nat.add_sub_cancel] at ih
      calc 128 ^ (k + 1) = 128 ^ k * 128 := by rw [Nat.pow_succ]
        _ ≤ max (n.toNat / 128 - 1) 1 * 128 := Nat.mul_le_mul_right _ ih
        _ ≤ max n.toNat 1 := by omega

/-- `WriteVarInt` stays within its `(w + 6) / 7`-byte buffer. -/
theorem length_writeVarIntTmp_le (hw : 1 ≤ w) (n : BitVec w) (len : Nat) :
    (writeVarIntTmp n len).length ≤ (w + 6) / 7 := by
  have hpow := pow_length_writeVarIntTmp_le n len
  have hn := n.isLt
  have hone : 1 < 2 ^ w := Nat.one_lt_two_pow (by omega)
  have hlt : 2 ^ (7 * ((writeVarIntTmp n len).length - 1)) < 2 ^ w := by
    rw [Nat.pow_mul]
    exact lt_of_le_of_lt hpow (max_lt hn hone)
  have hk := (Nat.pow_lt_pow_iff_right (by decide)).mp hlt
  have hpos : 0 < (writeVarIntTmp n len).length := by
    rw [writeVarIntTmp]
    split <;> simp
  omega

/-- VarInt is a bijection between the `w`-bit numbers and its format: the
writer stays in its buffer and writes `GetSizeOfVarInt` bytes, which the
reader reads back; whatever the reader accepts is what the writer writes for
the number it returned; and a varint spelling a number of more than `w` bits
makes the reader throw. -/
theorem varInt_bijective (hw : 8 ≤ w) (n : BitVec w) (rest b : List UInt8) :
    (WriteVarInt n).length = GetSizeOfVarInt n ∧ (writeVarIntTmp n 0).length ≤ (w + 6) / 7 ∧
      ReadVarInt (WriteVarInt n ++ rest) = .ok (n, rest) ∧
      (∀ (m : BitVec w) (r : List UInt8), ReadVarInt b = .ok (m, r) → b = WriteVarInt m ++ r) ∧
      ∀ (v : Nat) (r : List UInt8), varIntValue 0 b = some (v, r) → 2 ^ w ≤ v →
        ∃ e, ReadVarInt (w := w) b = .error e := by
  refine ⟨?_, length_writeVarIntTmp_le (by omega) n 0, ReadVarInt_write hw n rest,
    fun m r h => ReadVarInt_eq_ok hw h, fun v r h hv => ReadVarInt_of_le_value hw h hv⟩
  rw [WriteVarInt, List.length_reverse, GetSizeOfVarInt, getSizeOfVarIntLoop_eq n 0 0, Nat.zero_add]

/-- The largest `uint64_t` takes the whole ten-byte buffer. -/
theorem varInt_bijective_allOnes :
    8 ≤ 64 ∧ (WriteVarInt (BitVec.allOnes 64)).length = GetSizeOfVarInt (BitVec.allOnes 64) ∧
      (writeVarIntTmp (BitVec.allOnes 64) 0).length ≤ (64 + 6) / 7 ∧
      ReadVarInt (WriteVarInt (BitVec.allOnes 64) ++ []) = .ok (BitVec.allOnes 64, []) ∧
      (∀ (m : BitVec 64) (r : List UInt8), ReadVarInt [] = .ok (m, r) → [] = WriteVarInt m ++ r) ∧
      ∀ (v : Nat) (r : List UInt8), varIntValue 0 [] = some (v, r) → 2 ^ 64 ≤ v →
        ∃ e, ReadVarInt (w := 64) [] = .error e :=
  ⟨by decide, varInt_bijective (by decide) (BitVec.allOnes 64) [] []⟩

end VarInt


end Serialize

end BitcoinAbc
