import Mathlib
import BitcoinAbc.Lib.BitString

/-!
# Bit streams (streams.h)

`BitStreamWriter` packs numbers of any width up to 64 bits into the bytes of
a stream, from the high bit of each byte down; `BitStreamReader` takes them
out again. Both keep one byte in `m_buffer` and the number of its bits
already used in `m_offset`. The writer's stream is the vector a
`CVectorWriter` appends to, the reader's the bytes of a `VectorReader` not
read yet.

Between calls the writer has used fewer than 8 bits of its buffer (a full
byte is flushed at once), and the reader at most 8; `m_offset` is a `Fin 8`
and a `Fin 9`, so that every turn of a loop moves at least one bit.

Each stream means a list of bits (`BitString`): the bytes written and the
used bits of the buffer for the writer (`BitStreamWriter.bits`), the unused
bits of the buffer and the bytes left for the reader
(`BitStreamReader.bits`).

- `writeLoop_bits`: `Write(data, nbits)` appends the `nbits` low bits of
  `data`, and keeps the unused bits of the buffer clear (`WF`);
- `Flush_bits`: `Flush()` pads with zeros to the next byte;
- `readLoop_bits`: `Read(nbits)` returns the value of the next `nbits` bits
  and drops them, when there are as many.
-/

namespace BitcoinAbc

namespace Serialize

open BitString

/-! ## The model -/

/-- `BitStreamWriter<CVectorWriter>`: the bytes of the vector, and the byte
being filled, whose `m_offset` high bits are written. -/
structure BitStreamWriter where
  m_ostream : List UInt8
  m_buffer : UInt8 := 0
  m_offset : Fin 8 := 0

/-- `BitStreamWriter(ostream)`: the buffer starts empty. -/
def BitStreamWriter.ofStream (ostream : List UInt8) : BitStreamWriter := { m_ostream := ostream }

/-- What `Flush()` does to a writer with bits in its buffer: the byte goes
out and the buffer starts empty. -/
def BitStreamWriter.emit (w : BitStreamWriter) (m_buffer : UInt8) : BitStreamWriter :=
  { m_ostream := w.m_ostream ++ [m_buffer], m_buffer := 0, m_offset := 0 }

/-- `BitStreamWriter::Flush()`. -/
def BitStreamWriter.Flush (w : BitStreamWriter) : BitStreamWriter :=
  if w.m_offset = 0 then w else w.emit w.m_buffer

/-- A turn of the loop of `BitStreamWriter::Write(data, nbits)`: as many of
the high bits of the `nbits`-bit value as the buffer has room for go into
it, and a full buffer goes out. -/
def BitStreamWriter.writeTurn (data : UInt64) (nbits : Nat) (w : BitStreamWriter) : BitStreamWriter :=
  let bits := min (8 - w.m_offset.val) nbits
  let m_buffer := w.m_buffer |||
    ((data <<< (64 - nbits).toUInt64) >>> (64 - 8 + w.m_offset.val).toUInt64).toUInt8
  -- `m_offset += bits; if (m_offset == 8) Flush();`
  if hfull : w.m_offset.val + bits = 8 then w.emit m_buffer
  else { w with m_buffer, m_offset := ⟨w.m_offset.val + bits, by omega⟩ }

/-- The `while (nbits > 0)` loop of `BitStreamWriter::Write(data, nbits)`. -/
def BitStreamWriter.writeLoop (data : UInt64) (nbits : Nat) (w : BitStreamWriter) : BitStreamWriter :=
  if nbits = 0 then w
  else writeLoop data (nbits - min (8 - w.m_offset.val) nbits) (w.writeTurn data nbits)
termination_by nbits
decreasing_by have := w.m_offset.isLt; omega

/-- `BitStreamWriter::Write(data, nbits)`. The callers pass no negative
count. -/
def BitStreamWriter.Write (w : BitStreamWriter) (data : UInt64) (nbits : Nat) :
    Except String BitStreamWriter :=
  if nbits > 64 then throw "nbits must be between 0 and 64" else pure (w.writeLoop data nbits)

/-- `BitStreamReader<VectorReader>`: the bytes not read yet, and the byte
read last, whose `m_offset` high bits are used. -/
structure BitStreamReader where
  m_istream : List UInt8
  m_buffer : UInt8 := 0
  m_offset : Fin 9 := 8

/-- `BitStreamReader(istream)`: the buffer starts used up, so that the first
read takes a byte. -/
def BitStreamReader.ofStream (istream : List UInt8) : BitStreamReader := { m_istream := istream }

/-- The head of a turn of `Read`'s loop: `if (m_offset == 8) { m_istream >>
m_buffer; m_offset = 0; }`. It gives the bytes left, the buffer and its
offset, now below 8. -/
def BitStreamReader.fill (r : BitStreamReader) : Except String (List UInt8 × UInt8 × Fin 8) :=
  if h : r.m_offset.val = 8 then
    if hs : r.m_istream = [] then throw "VectorReader::read(): end of data"
    else pure (r.m_istream.tail, r.m_istream.head hs, 0)
  else pure (r.m_istream, r.m_buffer, ⟨r.m_offset.val, by omega⟩)

/-- The `while (nbits > 0)` loop of `BitStreamReader::Read(nbits)`, with the
bits read so far in `data`. -/
def BitStreamReader.readLoop (nbits : Nat) (data : UInt64) (r : BitStreamReader) :
    Except String (UInt64 × BitStreamReader) :=
  if nbits = 0 then pure (data, r)
  else
    match r.fill with
    | .error e => .error e
    | .ok (m_istream, m_buffer, off) =>
      let bits := min (8 - off.val) nbits
      let data := (data <<< bits.toUInt64) ||| ((m_buffer <<< off.val.toUInt8) >>> (8 - bits).toUInt8).toUInt64
      readLoop (nbits - bits) data { m_istream, m_buffer, m_offset := ⟨off.val + bits, by omega⟩ }
termination_by nbits
decreasing_by have := off.isLt; omega

/-- `BitStreamReader::Read(nbits)`. -/
def BitStreamReader.Read (r : BitStreamReader) (nbits : Nat) : Except String (UInt64 × BitStreamReader) :=
  if nbits > 64 then throw "nbits must be between 0 and 64" else r.readLoop nbits 0

/-! ## What a stream means -/

/-- The bits a writer has written: its bytes, then the used bits of its
buffer. -/
def BitStreamWriter.bits (w : BitStreamWriter) : List Bool :=
  ofBytes w.m_ostream ++ (ofByte w.m_buffer).take w.m_offset

/-- The unused bits of a writer's buffer are clear. -/
def BitStreamWriter.WF (w : BitStreamWriter) : Prop :=
  ∀ i < 8 - w.m_offset.val, w.m_buffer.toNat.testBit i = false

/-- The bits a reader has not returned yet: the rest of its buffer, then the
bytes left. -/
def BitStreamReader.bits (r : BitStreamReader) : List Bool :=
  (ofByte r.m_buffer).drop r.m_offset ++ ofBytes r.m_istream

@[simp] theorem BitStreamReader.length_bits (r : BitStreamReader) :
    r.bits.length = 8 - r.m_offset.val + 8 * r.m_istream.length := by
  simp [BitStreamReader.bits]

/-- A new writer holds the bytes of its stream, and its buffer is clear. -/
theorem BitStreamWriter.bits_ofStream (s : List UInt8) :
    (BitStreamWriter.ofStream s).bits = ofBytes s ∧ (BitStreamWriter.ofStream s).WF :=
  ⟨by simp [BitStreamWriter.ofStream, BitStreamWriter.bits], fun i _ => by simp [BitStreamWriter.ofStream]⟩

/-- A new reader has the bits of its stream to return. -/
theorem BitStreamReader.bits_ofStream (s : List UInt8) : (BitStreamReader.ofStream s).bits = ofBytes s := by
  simp [BitStreamReader.ofStream, BitStreamReader.bits]

/-! ## The shifts of one turn -/

section Shifts

/-- A byte cut at `off`: the high bits above it, the low bits below. -/
theorem ofNat_eight_split {off : Nat} (hoff : off ≤ 8) (x : Nat) :
    ofNat 8 x = ofNat off (x >>> (8 - off)) ++ ofNat (8 - off) x := by
  rw [← ofNat_add, Nat.add_sub_cancel' hoff]

/-- Bit `i` of the byte a turn of `Write` ors into the buffer: bit
`off + i + nbits - 8` of `data`, where that lies in the `nbits`-bit value and
below the `off` bits written. -/
theorem testBit_writeChunk (data : UInt64) {nbits off : Nat} (hn0 : 0 < nbits) (hn : nbits ≤ 64) (hoff : off < 8)
    (i : Nat) :
    (((data <<< (64 - nbits).toUInt64) >>> (64 - 8 + off).toUInt64).toUInt8).toNat.testBit i =
      (decide (i < 8 - off) && decide (8 ≤ off + i + nbits) && data.toNat.testBit (off + i + nbits - 8)) := by
  have hs : ((64 - nbits).toUInt64).toNat % 64 = 64 - nbits := by
    simp only [Nat.toUInt64, UInt64.toNat_ofNat']
    omega
  have ht : ((64 - 8 + off).toUInt64).toNat % 64 = 56 + off := by
    simp only [Nat.toUInt64, UInt64.toNat_ofNat']
    omega
  rw [UInt64.toNat_toUInt8, UInt64.toNat_shiftRight, UInt64.toNat_shiftLeft, hs, ht, Nat.testBit_mod_two_pow,
    Nat.testBit_shiftRight, Nat.testBit_mod_two_pow, Nat.testBit_shiftLeft]
  by_cases hi : i < 8 - off
  · simp only [decide_eq_true (by omega : i < 8), decide_eq_true (by omega : 56 + off + i < 64),
      decide_eq_true hi, Bool.true_and]
    by_cases hj : 8 ≤ off + i + nbits
    · rw [decide_eq_true (by omega : 56 + off + i ≥ 64 - nbits), decide_eq_true hj, Bool.true_and,
        Bool.true_and, show 56 + off + i - (64 - nbits) = off + i + nbits - 8 by omega]
    · rw [decide_eq_false (by omega : ¬ 56 + off + i ≥ 64 - nbits), decide_eq_false hj]
      rfl
  · rw [decide_eq_false hi]
    by_cases h8 : i < 8
    · rw [decide_eq_true h8, decide_eq_false (by omega : ¬ 56 + off + i < 64)]
      rfl
    · rw [decide_eq_false h8]
      rfl

/-- Bit `i` of what a turn of `Read` takes from the buffer: bit
`8 - off - bits + i` of the byte, for the `bits` bits after the `off` used
ones. -/
theorem toNat_readChunk (buf : UInt8) {bits off : Nat} (hoff : off < 8) (hb0 : 0 < bits) (hbits : bits ≤ 8 - off) :
    ((buf <<< off.toUInt8) >>> (8 - bits).toUInt8).toNat = (buf.toNat >>> (8 - off - bits)) % 2 ^ bits := by
  have hs : (off.toUInt8).toNat % 8 = off := by
    simp only [Nat.toUInt8, UInt8.toNat_ofNat']
    omega
  have ht : ((8 - bits).toUInt8).toNat % 8 = 8 - bits := by
    simp only [Nat.toUInt8, UInt8.toNat_ofNat']
    omega
  rw [UInt8.toNat_shiftRight, UInt8.toNat_shiftLeft, hs, ht]
  apply Nat.eq_of_testBit_eq
  intro i
  rw [Nat.testBit_shiftRight, Nat.testBit_mod_two_pow, Nat.testBit_shiftLeft, Nat.testBit_mod_two_pow,
    Nat.testBit_shiftRight]
  by_cases hi : i < bits
  · rw [decide_eq_true (by omega : 8 - bits + i < 8), decide_eq_true (by omega : 8 - bits + i ≥ off),
      decide_eq_true hi, Bool.true_and, Bool.true_and, Bool.true_and,
      show 8 - bits + i - off = 8 - off - bits + i by omega]
  · rw [decide_eq_false (by omega : ¬ 8 - bits + i < 8), decide_eq_false hi]
    rfl

/-- Shifting `bits` more bits into the accumulated word: the word times
`2^bits` plus the bits, wrapped to 64. -/
theorem toNat_shiftLeft_or (d c : UInt64) {b : Nat} (hb : b < 64) (hc : c.toNat < 2 ^ b) :
    ((d <<< b.toUInt64) ||| c).toNat = (d.toNat * 2 ^ b + c.toNat) % 2 ^ 64 := by
  have hs : (b.toUInt64).toNat % 64 = b := by
    simp only [Nat.toUInt64, UInt64.toNat_ofNat']
    omega
  rw [UInt64.toNat_or, UInt64.toNat_shiftLeft, hs, ← Nat.shiftLeft_eq, Nat.shiftLeft_add_eq_or_of_lt hc]
  apply Nat.eq_of_testBit_eq
  intro i
  rw [Nat.testBit_lor, Nat.testBit_mod_two_pow, Nat.testBit_mod_two_pow, Nat.testBit_lor]
  by_cases hi : i < 64
  · rw [decide_eq_true hi, Bool.true_and, Bool.true_and]
  · have hci : c.toNat.testBit i = false :=
      Nat.testBit_lt_two_pow (lt_of_lt_of_le c.toNat_lt (Nat.pow_le_pow_right (by norm_num) (by omega)))
    rw [decide_eq_false hi, Bool.false_and, Bool.false_and, hci]
    rfl

end Shifts

/-! ## Writing -/

section Writer

variable {w : BitStreamWriter}

/-- The used bits of a buffer after a turn of `Write`: those it had, then the
`bits` high bits of the `nbits`-bit value. -/
theorem take_ofByte_writeChunk (hw : w.WF) (data : UInt64) {nbits : Nat} (hn0 : 0 < nbits) (hn : nbits ≤ 64) :
    (ofByte (w.m_buffer ||| ((data <<< (64 - nbits).toUInt64) >>> (64 - 8 + w.m_offset.val).toUInt64).toUInt8)).take
        (w.m_offset.val + min (8 - w.m_offset.val) nbits) =
      (ofByte w.m_buffer).take w.m_offset ++ ofNat (min (8 - w.m_offset.val) nbits) (data.toNat >>> (nbits - min (8 - w.m_offset.val) nbits)) := by
  have hoff := w.m_offset.isLt
  set off := w.m_offset.val
  set bits := min (8 - off) nbits
  have hchunk := testBit_writeChunk data hn0 hn hoff
  set chunk := ((data <<< (64 - nbits).toUInt64) >>> (64 - 8 + off).toUInt64).toUInt8
  unfold ofByte
  rw [ofNat_eight_split (le_of_lt hoff), ofNat_eight_split (le_of_lt hoff), List.take_left' (length_ofNat _ _),
    List.take_append, List.take_of_length_le (by simp), length_ofNat, Nat.add_sub_cancel_left,
    take_ofNat (by omega), UInt8.toNat_or]
  congr 1
  · -- above `off` the chunk has no bit
    apply ofNat_congr
    intro i hi
    rw [Nat.testBit_shiftRight, Nat.testBit_shiftRight, Nat.testBit_lor, hchunk,
      decide_eq_false (by omega : ¬ 8 - off + i < 8 - off), Bool.false_and, Bool.false_and, Bool.or_false]
  · -- below it the buffer has none, and the chunk holds the high bits of the value
    apply ofNat_congr
    intro i hi
    rw [Nat.testBit_shiftRight, Nat.testBit_shiftRight, Nat.testBit_lor, hw _ (by omega), hchunk,
      decide_eq_true (by omega : 8 - off - bits + i < 8 - off), decide_eq_true (by omega : 8 ≤ off + (8 - off - bits + i) + nbits),
      Bool.false_or, Bool.true_and, Bool.true_and, show off + (8 - off - bits + i) + nbits - 8 = nbits - bits + i by omega]

/-- A turn of `Write` leaves the bits below the used ones clear. -/
theorem writeChunk_WF (hw : w.WF) (data : UInt64) {nbits : Nat} (hn0 : 0 < nbits) (hn : nbits ≤ 64) :
    ∀ i < 8 - (w.m_offset.val + min (8 - w.m_offset.val) nbits),
      (w.m_buffer ||| ((data <<< (64 - nbits).toUInt64) >>> (64 - 8 + w.m_offset.val).toUInt64).toUInt8).toNat.testBit i = false := by
  intro i hi
  have hoff := w.m_offset.isLt
  rw [UInt8.toNat_or, Nat.testBit_lor, hw i (by omega), testBit_writeChunk data hn0 hn hoff,
    decide_eq_false (by omega : ¬ 8 ≤ w.m_offset.val + i + nbits)]
  simp

/-- A turn of `Write` appends the `min (8 - m_offset) nbits` high bits of the
`nbits`-bit value, and keeps the unused bits of the buffer clear. -/
theorem writeTurn_bits (hw : w.WF) (data : UInt64) {nbits : Nat} (hn0 : 0 < nbits) (hn : nbits ≤ 64) :
    (w.writeTurn data nbits).bits = w.bits ++ ofNat (min (8 - w.m_offset.val) nbits)
        (data.toNat >>> (nbits - min (8 - w.m_offset.val) nbits)) ∧
      (w.writeTurn data nbits).WF ∧ w.m_ostream <+: (w.writeTurn data nbits).m_ostream := by
  have htake := take_ofByte_writeChunk hw data hn0 hn
  have hwf := writeChunk_WF hw data hn0 hn
  unfold BitStreamWriter.writeTurn
  dsimp only
  split
  · rename_i hfull
    -- the buffer is full and goes out whole
    rw [hfull, List.take_of_length_le (by simp)] at htake
    refine ⟨?_, fun i _ => by simp [BitStreamWriter.emit], List.prefix_append _ _⟩
    simp only [BitStreamWriter.bits, BitStreamWriter.emit, ofBytes_append, ofBytes_cons, ofBytes_nil,
      List.append_nil, Fin.val_zero, List.take_zero, List.append_assoc]
    rw [htake]
  · refine ⟨?_, hwf, List.prefix_refl _⟩
    simp only [BitStreamWriter.bits]
    rw [htake, List.append_assoc]

/-- `Write(data, nbits)` appends the `nbits` low bits of `data`, the most
significant first, and only appends to the stream. -/
theorem writeLoop_bits (data : UInt64) :
    ∀ nbits, nbits ≤ 64 → ∀ w : BitStreamWriter, w.WF →
      (w.writeLoop data nbits).bits = w.bits ++ ofNat nbits data.toNat ∧ (w.writeLoop data nbits).WF ∧
        w.m_ostream <+: (w.writeLoop data nbits).m_ostream := by
  intro nbits
  induction nbits using Nat.strong_induction_on with
  | _ nbits ih =>
    intro hn w hw
    rw [BitStreamWriter.writeLoop]
    split
    · rename_i h0
      subst h0
      exact ⟨by simp, hw, List.prefix_refl _⟩
    · rename_i h0
      have hoff := w.m_offset.isLt
      set bits := min (8 - w.m_offset.val) nbits
      -- one turn moves the `bits` high bits of the value, the recursive call the others
      have hsplit : ofNat nbits data.toNat =
          ofNat bits (data.toNat >>> (nbits - bits)) ++ ofNat (nbits - bits) data.toNat := by
        rw [← ofNat_add, Nat.add_sub_cancel' (by omega)]
      obtain ⟨hturn, hwf, hpre⟩ := writeTurn_bits hw data (show 0 < nbits by omega) hn
      obtain ⟨hbits, hwf', hpre'⟩ := ih (nbits - bits) (by omega) (by omega) _ hwf
      refine ⟨?_, hwf', hpre.trans hpre'⟩
      rw [hbits, hturn, hsplit, List.append_assoc]

/-- `Flush()` pads the bits written with zeros to the next byte, after which
they are exactly the bytes of the stream. -/
theorem Flush_bits (hw : w.WF) :
    w.Flush.bits = w.bits ++ List.replicate ((8 - w.m_offset.val) % 8) false ∧
      w.Flush.bits = ofBytes w.Flush.m_ostream ∧ w.m_ostream <+: w.Flush.m_ostream := by
  unfold BitStreamWriter.Flush
  split
  · rename_i h0
    simp [BitStreamWriter.bits, h0]
  · rename_i h0
    have hoff := w.m_offset.isLt
    have h0' : w.m_offset.val ≠ 0 := fun h => h0 (Fin.ext h)
    -- the unused bits of the buffer are the zeros of the padding
    have hpad : (ofByte w.m_buffer).drop w.m_offset = List.replicate ((8 - w.m_offset.val) % 8) false := by
      rw [ofByte, drop_ofNat, Nat.mod_eq_of_lt (by omega)]
      exact ofNat_eq_replicate_false hw
    refine ⟨?_, by simp [BitStreamWriter.bits, BitStreamWriter.emit], List.prefix_append _ _⟩
    simp only [BitStreamWriter.bits, BitStreamWriter.emit, ofBytes_append, ofBytes_cons, ofBytes_nil,
      List.append_nil, Fin.val_zero, List.take_zero, List.append_assoc, ← hpad, List.take_append_drop]

end Writer

/-! ## Reading -/

section Reader

/-- The head of a turn of `Read` finds the bits the reader has, when it has
any. -/
theorem fill_bits {r : BitStreamReader} (h : r.bits ≠ []) :
    ∃ rest buf off, r.fill = .ok (rest, buf, off) ∧ r.bits = (ofByte buf).drop off.val ++ ofBytes rest := by
  unfold BitStreamReader.fill
  split
  · rename_i h8
    -- the buffer is used up: the bits left are those of the bytes left
    have hbits : r.bits = ofBytes r.m_istream := by simp [BitStreamReader.bits, h8]
    have hs : r.m_istream ≠ [] := fun hs => h (by rw [hbits, hs, ofBytes_nil])
    rw [dif_neg hs]
    refine ⟨_, _, 0, rfl, ?_⟩
    rw [hbits, ofBytes_head_tail hs, Fin.val_zero, List.drop_zero]
  · exact ⟨_, _, _, rfl, rfl⟩

/-- What the head of a turn of `Read` finds is what the reader has. -/
theorem fill_eq_ok {r : BitStreamReader} {rest buf off} (h : r.fill = .ok (rest, buf, off)) :
    r.bits = (ofByte buf).drop off.val ++ ofBytes rest := by
  unfold BitStreamReader.fill at h
  split at h
  · rename_i h8
    split at h
    · cases h
    · rename_i hs
      cases h
      have hbits : r.bits = ofBytes r.m_istream := by simp [BitStreamReader.bits, h8]
      rw [hbits, ofBytes_head_tail hs, Fin.val_zero, List.drop_zero]
  · cases h
    rfl

/-- A read that returns has taken exactly `nbits` bits. -/
theorem readLoop_length :
    ∀ nbits (data : UInt64) (r : BitStreamReader) {v r'}, r.readLoop nbits data = .ok (v, r') →
      r'.bits.length + nbits = r.bits.length := by
  intro nbits
  induction nbits using Nat.strong_induction_on with
  | _ nbits ih =>
    intro data r v r' h
    rw [BitStreamReader.readLoop] at h
    split at h
    · rename_i h0
      cases h
      simp [h0]
    · split at h
      · cases h
      · rename_i rest buf off hfill
        have hoff := off.isLt
        have := ih _ (by omega) _ _ h
        rw [fill_eq_ok hfill, List.length_append, List.length_drop, length_ofByte, length_ofBytes]
        simp only [BitStreamReader.length_bits] at this ⊢
        omega

/-- Taking `bits` more bits into the word read so far. -/
theorem ofNat_shiftLeft_or (data c : UInt64) {b k : Nat} (hb : b < 64) (hc : c.toNat < 2 ^ b) (v : Nat) :
    UInt64.ofNat (((data <<< b.toUInt64) ||| c).toNat * 2 ^ k + v) =
      UInt64.ofNat (data.toNat * 2 ^ (b + k) + (c.toNat * 2 ^ k + v)) := by
  rw [toNat_shiftLeft_or data c hb hc]
  -- the word wraps at `2^64`, and so does `UInt64.ofNat`
  have h : (data.toNat * 2 ^ b + c.toNat) % 2 ^ 64 * 2 ^ k + v ≡ (data.toNat * 2 ^ b + c.toNat) * 2 ^ k + v [MOD 2 ^ 64] :=
    ((Nat.mod_modEq _ _).mul_right _).add_right _
  apply UInt64.toNat_inj.mp
  rw [UInt64.toNat_ofNat', UInt64.toNat_ofNat', h, Nat.pow_add]
  congr 1
  ring

/-- With `nbits` bits left, a read returns their value on top of the word
read so far, and drops them. -/
theorem readLoop_bits :
    ∀ nbits (data : UInt64) (r : BitStreamReader), nbits ≤ r.bits.length →
      ∃ r', r.readLoop nbits data = .ok (UInt64.ofNat (data.toNat * 2 ^ nbits + val (r.bits.take nbits)), r') ∧
        r'.bits = r.bits.drop nbits := by
  intro nbits
  induction nbits using Nat.strong_induction_on with
  | _ nbits ih =>
    intro data r hlen
    rw [BitStreamReader.readLoop]
    split
    · rename_i h0
      subst h0
      refine ⟨r, ?_, rfl⟩
      simp only [Nat.pow_zero, Nat.mul_one, List.take_zero, val_nil, Nat.add_zero, UInt64.ofNat_toNat]
      rfl
    · rename_i h0
      obtain ⟨rest, buf, off, hfill, hbits⟩ := fill_bits (r := r) (by intro h; rw [h] at hlen; simp at hlen; omega)
      rw [hfill]
      dsimp only
      have hoff := off.isLt
      set bits := min (8 - off.val) nbits
      set chunk := ((buf <<< off.val.toUInt8) >>> (8 - bits).toUInt8).toUInt64
      set r1 : BitStreamReader := { m_istream := rest, m_buffer := buf, m_offset := ⟨off.val + bits, by omega⟩ }
      -- the turn takes the `bits` bits after the used ones
      have htake : r.bits.take bits = ofNat bits (buf.toNat >>> (8 - off.val - bits)) := by
        rw [hbits, List.take_append_of_le_length (by simp; omega), ofByte, drop_ofNat, take_ofNat (by omega)]
      have hdrop : r1.bits = r.bits.drop bits := by
        rw [hbits, List.drop_append_of_le_length (by simp; omega), List.drop_drop]
        rfl
      have hchunk : chunk.toNat = (buf.toNat >>> (8 - off.val - bits)) % 2 ^ bits := by
        rw [UInt8.toNat_toUInt64, toNat_readChunk buf off.isLt (by omega) (by omega)]
      have hc : chunk.toNat < 2 ^ bits := by
        rw [hchunk]
        exact Nat.mod_lt _ (by positivity)
      -- and the bits it took come before those the rest of the loop takes
      have hval : chunk.toNat * 2 ^ (nbits - bits) + val ((r.bits.drop bits).take (nbits - bits)) =
          val (r.bits.take nbits) := by
        have hlen2 : ((r.bits.drop bits).take (nbits - bits)).length = nbits - bits := by
          rw [List.length_take, List.length_drop]
          omega
        rw [hchunk, ← val_ofNat, ← htake]
        rw [show 2 ^ (nbits - bits) = 2 ^ ((r.bits.drop bits).take (nbits - bits)).length by rw [hlen2],
          ← val_append, ← List.take_add, Nat.add_sub_cancel' (by omega)]
      obtain ⟨r', hr', hr'bits⟩ := ih (nbits - bits) (by omega) ((data <<< bits.toUInt64) ||| chunk) r1
        (by rw [hdrop, List.length_drop]; omega)
      refine ⟨r', ?_, ?_⟩
      · rw [hr', ofNat_shiftLeft_or data _ (by omega) hc, hdrop, hval, Nat.add_sub_cancel' (by omega)]
      · rw [hr'bits, hdrop, List.drop_drop, Nat.add_sub_cancel' (by omega)]

/-- `Read(nbits)` of up to 64 bits, with as many left: their value, and the
reader past them. -/
theorem Read_bits {r : BitStreamReader} {nbits : Nat} (hn : nbits ≤ 64) (hlen : nbits ≤ r.bits.length) :
    ∃ r', r.Read nbits = .ok (UInt64.ofNat (val (r.bits.take nbits)), r') ∧ r'.bits = r.bits.drop nbits := by
  obtain ⟨r', h, hbits⟩ := readLoop_bits nbits 0 r hlen
  refine ⟨r', ?_, hbits⟩
  rw [BitStreamReader.Read, if_neg (by omega), h]
  simp

/-- A `Read` that returns has taken exactly `nbits` bits. -/
theorem Read_length {r r' : BitStreamReader} {nbits : Nat} {v : UInt64} (h : r.Read nbits = .ok (v, r')) :
    r'.bits.length + nbits = r.bits.length := by
  unfold BitStreamReader.Read at h
  split at h
  · cases h
  · exact readLoop_length nbits 0 r h

end Reader

end Serialize

end BitcoinAbc
