import Mathlib
import BitcoinAbc.Lib.LittleEndian

/-!
# SipHash (crypto/siphash.cpp)

`SIPROUND` is one round of SipHash on the state `(v0, v1, v2, v3)`, and
`sipCompress` takes one word into the state with two of them. `CSipHasher`
hashes any bytes: it gathers them little-endian into the word `tmp`,
compresses each full word into the state, and counts the bytes in a
`uint8_t`. `SipHashUint256` and `SipHashUint256Extra` are the same
computation unrolled for the 32 bytes of a hash, and for those and 4 more.

- `Write_word`: eight bytes written on a word boundary compress their
  little-endian value, as `Write(uint64_t)` does;
- `Write_partial`: fewer than eight wait in `tmp`;
- `SipHashUint256_eq_Write`: the two unrolled functions are the hasher on
  the bytes of their arguments.
-/

namespace BitcoinAbc

open LittleEndian

/-! ## SipHash-2-4 of a hash -/

/-- `uint256::GetUint64(pos)`: the 64-bit little-endian word `pos` of the
hash. -/
def uint256GetUint64 (v : BitVec 256) (pos : Nat) : UInt64 :=
  UInt64.ofNat ((v.toNat >>> (64 * pos)) % 2 ^ 64)

/-- `ROTL(x, b)`. -/
def ROTL (x : UInt64) (b : UInt64) : UInt64 := (x <<< b) ||| (x >>> (64 - b))

/-- `SIPROUND` on the state `(v0, v1, v2, v3)`. -/
def SIPROUND (v : UInt64 × UInt64 × UInt64 × UInt64) : UInt64 × UInt64 × UInt64 × UInt64 :=
  let (v0, v1, v2, v3) := v
  let v0 := v0 + v1
  let v1 := ROTL v1 13
  let v1 := v1 ^^^ v0
  let v0 := ROTL v0 32
  let v2 := v2 + v3
  let v3 := ROTL v3 16
  let v3 := v3 ^^^ v2
  let v0 := v0 + v3
  let v3 := ROTL v3 21
  let v3 := v3 ^^^ v0
  let v2 := v2 + v1
  let v1 := ROTL v1 17
  let v1 := v1 ^^^ v2
  let v2 := ROTL v2 32
  (v0, v1, v2, v3)

/-- One word of `SipHashUint256`: `v3 ^= d`, two rounds, `v0 ^= d`. -/
def sipCompress (v : UInt64 × UInt64 × UInt64 × UInt64) (d : UInt64) :
    UInt64 × UInt64 × UInt64 × UInt64 :=
  let (v0, v1, v2, v3) := SIPROUND (SIPROUND (v.1, v.2.1, v.2.2.1, v.2.2.2 ^^^ d))
  (v0 ^^^ d, v1, v2, v3)

/-- `SipHashUint256(k0, k1, val)`: SipHash-2-4 of the four words of `val`. -/
def SipHashUint256 (k0 k1 : UInt64) (val : BitVec 256) : UInt64 :=
  let v : UInt64 × UInt64 × UInt64 × UInt64 :=
    (0x736f6d6570736575 ^^^ k0, 0x646f72616e646f6d ^^^ k1, 0x6c7967656e657261 ^^^ k0,
      0x7465646279746573 ^^^ k1)
  let v := sipCompress v (uint256GetUint64 val 0)
  let v := sipCompress v (uint256GetUint64 val 1)
  let v := sipCompress v (uint256GetUint64 val 2)
  let v := sipCompress v (uint256GetUint64 val 3)
  let v := sipCompress v ((4 : UInt64) <<< 59)
  let (v0, v1, v2, v3) := SIPROUND (SIPROUND (SIPROUND (SIPROUND (v.1, v.2.1, v.2.2.1 ^^^ 0xFF, v.2.2.2))))
  v0 ^^^ v1 ^^^ v2 ^^^ v3

/-! ## Any bytes -/

/-- `CSipHasher`: the state `v`, the bytes of the word being gathered, and
the count of bytes written, of which only the low 8 bits are kept. -/
structure CSipHasher where
  v : UInt64 × UInt64 × UInt64 × UInt64
  tmp : UInt64
  count : UInt8

/-- `CSipHasher(k0, k1)`. -/
def CSipHasher.make (k0 k1 : UInt64) : CSipHasher :=
  ⟨(0x736f6d6570736575 ^^^ k0, 0x646f72616e646f6d ^^^ k1, 0x6c7967656e657261 ^^^ k0,
    0x7465646279746573 ^^^ k1), 0, 0⟩

/-- `CSipHasher::Write(uint64_t data)`: it asserts that a whole number of
words has been written. -/
def CSipHasher.WriteU64 (h : CSipHasher) (data : UInt64) : Option CSipHasher :=
  if h.count % 8 = 0 then some { v := sipCompress h.v data, tmp := h.tmp, count := h.count + 8 } else none

/-- A turn of the loop of `CSipHasher::Write(data, size)`. -/
def CSipHasher.writeByte (h : CSipHasher) (b : UInt8) : CSipHasher :=
  let t := h.tmp ||| (b.toUInt64 <<< (8 * (h.count % 8).toUInt64))
  let c := h.count + 1
  if c &&& 7 = 0 then { v := sipCompress h.v t, tmp := 0, count := c }
  else { v := h.v, tmp := t, count := c }

/-- `CSipHasher::Write(data, size)`. -/
def CSipHasher.Write (h : CSipHasher) (data : List UInt8) : CSipHasher := data.foldl CSipHasher.writeByte h

/-- The rounds after the last word, which `Finalize` and the unrolled
functions share: `v2 ^= 0xFF`, four rounds, and the xor of the state. -/
def sipFinish (v : UInt64 × UInt64 × UInt64 × UInt64) : UInt64 :=
  let (v0, v1, v2, v3) := SIPROUND (SIPROUND (SIPROUND (SIPROUND (v.1, v.2.1, v.2.2.1 ^^^ 0xFF, v.2.2.2))))
  v0 ^^^ v1 ^^^ v2 ^^^ v3

/-- `CSipHasher::Finalize()`: the last word carries the count in its high
byte. -/
def CSipHasher.Finalize (h : CSipHasher) : UInt64 :=
  let t := h.tmp ||| (h.count.toUInt64 <<< 56)
  sipFinish (sipCompress h.v t)

/-- `SipHashUint256Extra(k0, k1, val, extra)`: SipHash-2-4 of the four words
of `val`, then of `extra` with the byte count 36 above it. -/
def SipHashUint256Extra (k0 k1 : UInt64) (val : BitVec 256) (extra : UInt32) : UInt64 :=
  let v : UInt64 × UInt64 × UInt64 × UInt64 :=
    (0x736f6d6570736575 ^^^ k0, 0x646f72616e646f6d ^^^ k1, 0x6c7967656e657261 ^^^ k0,
      0x7465646279746573 ^^^ k1)
  let v := sipCompress v (uint256GetUint64 val 0)
  let v := sipCompress v (uint256GetUint64 val 1)
  let v := sipCompress v (uint256GetUint64 val 2)
  let v := sipCompress v (uint256GetUint64 val 3)
  sipFinish (sipCompress v (((36 : UInt64) <<< 56) ||| extra.toUInt64))

/-! ## Writing bytes -/

section Write

@[simp] theorem CSipHasher.Write_nil (h : CSipHasher) : h.Write [] = h := rfl

theorem CSipHasher.Write_append (h : CSipHasher) (xs ys : List UInt8) :
    h.Write (xs ++ ys) = (h.Write xs).Write ys :=
  List.foldl_append

theorem CSipHasher.Write_singleton (h : CSipHasher) (b : UInt8) : h.Write [b] = h.writeByte b := rfl

theorem value_append_singleton (p : List UInt8) (b : UInt8) :
    value (p ++ [b]) = value p + 256 ^ p.length * b.toNat := by
  induction p with
  | nil => simp
  | cons a p ih =>
    rw [List.cons_append, value_cons, value_cons, ih, List.length_cons, Nat.pow_succ]
    ring

theorem toNat_and_seven (c : UInt8) : (c &&& 7).toNat = c.toNat % 8 := by
  rw [UInt8.toNat_and, show (7 : UInt8).toNat = 2 ^ 3 - 1 from rfl, Nat.and_two_pow_sub_one_eq_mod]

/-- A byte gathered into the word, above the `k` bytes already there. -/
theorem toNat_tmp_or {p : List UInt8} (b : UInt8) (hp : p.length < 8) :
    ((UInt64.ofNat (value p)) ||| (b.toUInt64 <<< (8 * (UInt8.ofNat p.length).toUInt64))).toNat = value (p ++ [b]) := by
  have hv : value p < 2 ^ (8 * p.length) := by
    rw [Nat.pow_mul]
    exact value_lt p
  have hv64 : value p < 2 ^ 64 := lt_of_lt_of_le hv (Nat.pow_le_pow_right (by norm_num) (by omega))
  have hs : (8 * (UInt8.ofNat p.length).toUInt64).toNat % 64 = 8 * p.length := by
    simp
    omega
  have hb : b.toNat * 2 ^ (8 * p.length) < 2 ^ 64 := by
    calc b.toNat * 2 ^ (8 * p.length) < 2 ^ 8 * 2 ^ (8 * p.length) :=
          Nat.mul_lt_mul_of_pos_right b.toNat_lt (by positivity)
      _ = 2 ^ (8 + 8 * p.length) := (Nat.pow_add _ _ _).symm
      _ ≤ 2 ^ 64 := Nat.pow_le_pow_right (by norm_num) (by omega)
  rw [UInt64.toNat_or, UInt64.toNat_ofNat', Nat.mod_eq_of_lt hv64, UInt64.toNat_shiftLeft, UInt8.toNat_toUInt64, hs,
    Nat.shiftLeft_eq, Nat.mod_eq_of_lt hb, Nat.lor_comm, ← Nat.shiftLeft_eq, ← Nat.shiftLeft_add_eq_or_of_lt hv,
    Nat.shiftLeft_eq, value_append_singleton, Nat.pow_mul]
  ring

/-- Fewer than eight bytes after a word boundary wait in `tmp`, little-endian. -/
theorem CSipHasher.Write_partial (h : CSipHasher) (htmp : h.tmp = 0) (hc : h.count.toNat % 8 = 0) :
    ∀ p : List UInt8, p.length < 8 →
      h.Write p = { v := h.v, tmp := UInt64.ofNat (value p), count := h.count + UInt8.ofNat p.length } := by
  intro p
  induction p using List.reverseRecOn with
  | nil =>
    intro _
    cases h
    simp only at htmp
    subst htmp
    simp
  | append_singleton p b ih =>
    intro hlen
    rw [List.length_append, List.length_singleton] at hlen
    rw [CSipHasher.Write_append, ih (by omega), CSipHasher.Write_singleton, CSipHasher.writeByte]
    dsimp only
    have hk : (UInt8.ofNat p.length).toNat = p.length := by
      simp
      omega
    have hcount : (h.count + UInt8.ofNat p.length).toNat = (h.count.toNat + p.length) % 256 := by
      rw [UInt8.toNat_add, hk]
    -- the byte count stays short of the next boundary
    have hpos : (h.count + UInt8.ofNat p.length) % 8 = UInt8.ofNat p.length := by
      apply UInt8.toNat_inj.mp
      rw [UInt8.toNat_mod, hcount, hk, show (8 : UInt8).toNat = 8 from rfl]
      omega
    have hnext : ¬ (h.count + UInt8.ofNat p.length + 1) &&& 7 = 0 := by
      intro h0
      have := congrArg UInt8.toNat h0
      rw [toNat_and_seven, UInt8.toNat_add, hcount, show (1 : UInt8).toNat = 1 from rfl,
        show (0 : UInt8).toNat = 0 from rfl] at this
      omega
    have hvalue : value (p ++ [b]) < 2 ^ 64 :=
      calc value (p ++ [b]) < 256 ^ (p ++ [b]).length := value_lt _
        _ ≤ 256 ^ 8 := Nat.pow_le_pow_right (by norm_num) (by simp; omega)
        _ = 2 ^ 64 := by norm_num
    rw [if_neg hnext, hpos, List.length_append, List.length_singleton, UInt8.ofNat_add, UInt8.add_assoc]
    congr 1
    apply UInt64.toNat_inj.mp
    rw [toNat_tmp_or b (by omega), UInt64.toNat_ofNat', Nat.mod_eq_of_lt hvalue]

/-- The last of `n + 1` little-endian bytes is the digit `n` of the number. -/
theorem bytes_succ_eq_append : ∀ (n v : Nat), bytes (n + 1) v = bytes n v ++ [UInt8.ofNat (v / 256 ^ n)]
  | 0, v => by simp
  | n + 1, v => by
    rw [bytes_succ, bytes_succ_eq_append n (v / 256), bytes_succ, List.cons_append, Nat.div_div_eq_div_mul,
      ← Nat.pow_succ']

theorem bytes_add : ∀ (a b v : Nat), bytes (a + b) v = bytes a v ++ bytes b (v / 256 ^ a)
  | 0, b, v => by simp
  | a + 1, b, v => by
    rw [show a + 1 + b = a + b + 1 by omega, bytes_succ, bytes_add a b (v / 256), bytes_succ, List.cons_append,
      Nat.div_div_eq_div_mul, ← Nat.pow_succ']

/-- `bytes n v` reads `v` modulo `256 ^ n` only. -/
theorem bytes_mod : ∀ (n v : Nat), bytes n (v % 256 ^ n) = bytes n v
  | 0, v => rfl
  | n + 1, v => by
    have hdiv : v % 256 ^ (n + 1) / 256 = v / 256 % 256 ^ n := by
      rw [Nat.pow_succ', Nat.mod_mul_right_div_self]
    have hlow : UInt8.ofNat (v % 256 ^ (n + 1)) = UInt8.ofNat v := by
      apply UInt8.toNat_inj.mp
      rw [UInt8.toNat_ofNat', UInt8.toNat_ofNat', Nat.pow_succ', Nat.mod_mul_right_mod]
    rw [bytes_succ, bytes_succ, hlow, hdiv, bytes_mod n]

/-- Eight bytes written on a word boundary compress their little-endian
value, as `Write(uint64_t)` does, and leave the hasher on the next
boundary. -/
theorem CSipHasher.Write_word (h : CSipHasher) (htmp : h.tmp = 0) (hc : h.count.toNat % 8 = 0) (d : UInt64) :
    h.Write (bytes 8 d.toNat) = { v := sipCompress h.v d, tmp := 0, count := h.count + 8 } := by
  have hlen : (bytes 7 d.toNat).length = 7 := length_bytes 7 _
  rw [bytes_succ_eq_append, CSipHasher.Write_append, h.Write_partial htmp hc _ (by rw [hlen]; norm_num),
    CSipHasher.Write_singleton, CSipHasher.writeByte]
  dsimp only
  have hcount : (h.count + UInt8.ofNat (bytes 7 d.toNat).length) % 8 = UInt8.ofNat (bytes 7 d.toNat).length := by
    apply UInt8.toNat_inj.mp
    rw [UInt8.toNat_mod, UInt8.toNat_add, hlen, show (8 : UInt8).toNat = 8 from rfl,
      show (UInt8.ofNat 7).toNat = 7 from rfl]
    omega
  -- the eighth byte completes the word, which is `d` again
  have hword : UInt64.ofNat (value (bytes 7 d.toNat)) |||
      (UInt8.ofNat (d.toNat / 256 ^ 7)).toUInt64 <<< (8 * (UInt8.ofNat (bytes 7 d.toNat).length).toUInt64) = d := by
    apply UInt64.toNat_inj.mp
    rw [toNat_tmp_or _ (by rw [hlen]; norm_num), ← bytes_succ_eq_append, value_bytes,
      Nat.mod_eq_of_lt (lt_of_lt_of_eq d.toNat_lt (by norm_num))]
  have hfull : (h.count + UInt8.ofNat (bytes 7 d.toNat).length + 1) &&& 7 = 0 := by
    apply UInt8.toNat_inj.mp
    rw [toNat_and_seven, UInt8.toNat_add, UInt8.toNat_add, hlen, show (UInt8.ofNat 7).toNat = 7 from rfl,
      show (1 : UInt8).toNat = 1 from rfl, show (0 : UInt8).toNat = 0 from rfl]
    omega
  rw [hcount, hword, if_pos hfull, hlen, UInt8.add_assoc]
  rfl

/-- Words written on a word boundary, byte by byte, compress one after
another. -/
theorem CSipHasher.Write_words : ∀ (ws : List UInt64) (h : CSipHasher), h.tmp = 0 → h.count.toNat % 8 = 0 →
    h.Write (ws.flatMap fun d => bytes 8 d.toNat) =
      { v := ws.foldl sipCompress h.v, tmp := 0, count := h.count + UInt8.ofNat (8 * ws.length) }
  | [], h, htmp, _ => by
    cases h
    simp only at htmp
    subst htmp
    simp
  | d :: ws, h, htmp, hc => by
    have hc' : (h.count + 8).toNat % 8 = 0 := by
      rw [UInt8.toNat_add, show (8 : UInt8).toNat = 8 from rfl]
      omega
    rw [List.flatMap_cons, CSipHasher.Write_append, h.Write_word htmp hc d,
      CSipHasher.Write_words ws _ rfl hc', List.foldl_cons, List.length_cons, UInt8.add_assoc,
      show 8 * (ws.length + 1) = 8 + 8 * ws.length by ring, UInt8.ofNat_add]
    rfl

/-- `Write(uint64_t)` is the little-endian bytes of the word, on a word
boundary. -/
theorem CSipHasher.WriteU64_eq_Write (h : CSipHasher) (htmp : h.tmp = 0) (hc : h.count.toNat % 8 = 0) (d : UInt64) :
    h.WriteU64 d = some (h.Write (bytes 8 d.toNat)) := by
  have hc8 : h.count % 8 = 0 := by
    apply UInt8.toNat_inj.mp
    rw [UInt8.toNat_mod, show (8 : UInt8).toNat = 8 from rfl, hc]
    rfl
  rw [CSipHasher.WriteU64, if_pos hc8, h.Write_word htmp hc, htmp]

end Write

/-! ## The unrolled hashes -/

section Unrolled

/-- The 32 bytes of a hash are the bytes of its four words. -/
theorem bytes_uint256 (val : BitVec 256) :
    bytes 32 val.toNat = [uint256GetUint64 val 0, uint256GetUint64 val 1, uint256GetUint64 val 2,
      uint256GetUint64 val 3].flatMap fun d => bytes 8 d.toNat := by
  have h256 : ∀ i, 2 ^ (64 * i) = 256 ^ (8 * i) := fun i => by rw [Nat.pow_mul, Nat.pow_mul]
  have hword : ∀ i, bytes 8 (uint256GetUint64 val i).toNat = bytes 8 (val.toNat / 256 ^ (8 * i)) := by
    intro i
    rw [uint256GetUint64, UInt64.toNat_ofNat', Nat.mod_mod, Nat.shiftRight_eq_div_pow,
      show 2 ^ 64 = 256 ^ 8 by norm_num, bytes_mod, h256]
  simp only [List.flatMap_cons, List.flatMap_nil, List.append_nil, hword]
  rw [show 32 = 8 + (8 + (8 + 8)) from rfl, bytes_add, bytes_add, bytes_add]
  simp only [Nat.div_div_eq_div_mul, ← Nat.pow_add]
  norm_num

/-- The state after the four words of a hash. -/
theorem CSipHasher.Write_uint256 (k0 k1 : UInt64) (val : BitVec 256) :
    (CSipHasher.make k0 k1).Write (bytes 32 val.toNat) =
      { v := [uint256GetUint64 val 0, uint256GetUint64 val 1, uint256GetUint64 val 2,
          uint256GetUint64 val 3].foldl sipCompress (CSipHasher.make k0 k1).v, tmp := 0, count := 32 } := by
  rw [bytes_uint256, CSipHasher.Write_words _ _ rfl rfl]
  rfl

theorem SipHashUint256_eq_sipFinish (k0 k1 : UInt64) (val : BitVec 256) :
    SipHashUint256 k0 k1 val = sipFinish (sipCompress (sipCompress (sipCompress (sipCompress (sipCompress
      (0x736f6d6570736575 ^^^ k0, 0x646f72616e646f6d ^^^ k1, 0x6c7967656e657261 ^^^ k0, 0x7465646279746573 ^^^ k1)
      (uint256GetUint64 val 0)) (uint256GetUint64 val 1)) (uint256GetUint64 val 2)) (uint256GetUint64 val 3))
      ((4 : UInt64) <<< 59)) := by
  delta SipHashUint256 sipFinish
  rfl

/-- `SipHashUint256` and `SipHashUint256Extra` are the SipHash of the 32
bytes of the hash, and of those and the 4 bytes of `extra`: the generic
hasher computes them, byte by byte, or word by word as the header says. -/
theorem SipHashUint256_eq_Write (k0 k1 : UInt64) (val : BitVec 256) (extra : UInt32) :
    ((CSipHasher.make k0 k1).Write (bytes 32 val.toNat)).Finalize = SipHashUint256 k0 k1 val ∧
      (((((CSipHasher.make k0 k1).WriteU64 (uint256GetUint64 val 0)).bind (·.WriteU64 (uint256GetUint64 val 1))).bind
        (·.WriteU64 (uint256GetUint64 val 2))).bind (·.WriteU64 (uint256GetUint64 val 3))).map CSipHasher.Finalize =
        some (SipHashUint256 k0 k1 val) ∧
      ((CSipHasher.make k0 k1).Write (bytes 32 val.toNat ++ bytes 4 extra.toNat)).Finalize =
        SipHashUint256Extra k0 k1 val extra := by
  have h256 := CSipHasher.Write_uint256 k0 k1 val
  -- the count word after 32 bytes
  have hcount : (0 : UInt64) ||| (32 : UInt8).toUInt64 <<< 56 = (4 : UInt64) <<< 59 := by decide
  refine ⟨?_, ?_, ?_⟩
  · rw [h256, CSipHasher.Finalize, SipHashUint256_eq_sipFinish]
    dsimp only [List.foldl_cons, List.foldl_nil, CSipHasher.make]
    rw [hcount]
  · -- each word goes in on a word boundary
    have hstep : ∀ (h : CSipHasher) (d : UInt64), h.tmp = 0 → h.count.toNat % 8 = 0 →
        h.WriteU64 d = some { v := sipCompress h.v d, tmp := 0, count := h.count + 8 } := by
      intro h d htmp hc
      rw [h.WriteU64_eq_Write htmp hc, h.Write_word htmp hc]
    rw [hstep _ _ rfl rfl, Option.bind_some, hstep _ _ rfl (by simp [CSipHasher.make]), Option.bind_some,
      hstep _ _ rfl (by simp [CSipHasher.make]), Option.bind_some, hstep _ _ rfl (by simp [CSipHasher.make]),
      Option.map_some, CSipHasher.Finalize, SipHashUint256_eq_sipFinish]
    dsimp only [CSipHasher.make]
    rw [show (0 : UInt8) + 8 + 8 + 8 + 8 = 32 from rfl, hcount]
  · rw [CSipHasher.Write_append, h256, CSipHasher.Write_partial _ rfl (by simp) _ (by simp)]
    have hextra : UInt64.ofNat (value (bytes 4 extra.toNat)) = extra.toUInt64 := by
      apply UInt64.toNat_inj.mp
      rw [UInt64.toNat_ofNat', value_bytes, Nat.mod_eq_of_lt (lt_of_lt_of_eq extra.toNat_lt (by norm_num)),
        Nat.mod_eq_of_lt (lt_trans extra.toNat_lt (by norm_num)), UInt32.toNat_toUInt64]
    have hcount36 : ((32 : UInt8) + UInt8.ofNat (bytes 4 extra.toNat).length).toUInt64 <<< 56 = (36 : UInt64) <<< 56 := by
      rw [length_bytes]
      decide
    rw [CSipHasher.Finalize, SipHashUint256Extra]
    dsimp only [List.foldl_cons, List.foldl_nil]
    rw [hextra, hcount36, UInt64.or_comm]
    rfl

end Unrolled

end BitcoinAbc
