import Mathlib

/-!
# Little-endian byte strings

A number written as a fixed count of bytes, least significant first, and the
number a byte string spells read the same way.

- `LittleEndian.bytes len v`: the low `len` bytes of `v`;
- `LittleEndian.value bs`: the number `bs` spells;
- `value_bytes` and `bytes_value`: writing then reading keeps `v` modulo
  `256 ^ len`, and reading then writing gives the bytes back.
-/

namespace LittleEndian

/-- The low `len` bytes of `v`, least significant first. -/
def bytes : Nat → Nat → List UInt8
  | 0, _ => []
  | len + 1, v => UInt8.ofNat v :: bytes len (v / 256)

/-- The number a byte string spells, its first byte least significant. -/
def value : List UInt8 → Nat
  | [] => 0
  | b :: bs => b.toNat + 256 * value bs

@[simp] theorem bytes_zero (v : Nat) : bytes 0 v = [] := rfl

@[simp] theorem bytes_succ (len v : Nat) :
    bytes (len + 1) v = UInt8.ofNat v :: bytes len (v / 256) := rfl

@[simp] theorem value_nil : value [] = 0 := rfl

@[simp] theorem value_cons (b : UInt8) (bs : List UInt8) :
    value (b :: bs) = b.toNat + 256 * value bs := rfl

@[simp] theorem length_bytes : ∀ (len v : Nat), (bytes len v).length = len
  | 0, _ => rfl
  | len + 1, v => by rw [bytes_succ, List.length_cons, length_bytes len]

theorem value_lt : ∀ bs : List UInt8, value bs < 256 ^ bs.length
  | [] => by simp
  | b :: bs => by
    have hb := b.toNat_lt
    have ih := value_lt bs
    rw [value_cons, List.length_cons, Nat.pow_succ]
    omega

/-- Reading what was written gives the number back, modulo `256 ^ len`. The
induction is on the count, with the number divided by `256` at each byte. -/
theorem value_bytes : ∀ (len v : Nat), value (bytes len v) = v % 256 ^ len
  | 0, v => by rw [bytes_zero, value_nil, Nat.pow_zero, Nat.mod_one]
  | len + 1, v => by
    rw [bytes_succ, value_cons, value_bytes len, Nat.pow_succ', Nat.mod_mul, UInt8.toNat_ofNat']

theorem value_bytes_of_lt {len v : Nat} (h : v < 256 ^ len) : value (bytes len v) = v := by
  rw [value_bytes, Nat.mod_eq_of_lt h]

/-- Writing what was read gives the bytes back. -/
theorem bytes_value : ∀ bs : List UInt8, bytes bs.length (value bs) = bs
  | [] => rfl
  | b :: bs => by
    have hb := b.toNat_lt
    have hdiv : (b.toNat + 256 * value bs) / 256 = value bs := by omega
    have hmod : UInt8.ofNat (b.toNat + 256 * value bs) = b := by
      apply UInt8.toNat_inj.mp
      rw [UInt8.toNat_ofNat']
      omega
    rw [List.length_cons, value_cons, bytes_succ, hdiv, hmod, bytes_value bs]

end LittleEndian
