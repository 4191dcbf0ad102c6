import MerkleSignature.Proofs.Bytes.Digits

/-!
# Fields are written and read in words

A number of 64 bits is written over whatever stands in a field. The field is cleared first; then
byte after byte is shifted out of the word and written from the end of the field towards its front,
until nothing is left of the word or of the field. The bytes in front of the last one written stay
as they were cleared, so the writing may stop early without a trace.

A field is read by shifting its bytes into a word, which keeps all of them when there are at most
eight. Both ways a field of `width` bytes stands for a number modulo `256 ^ width`.
-/

namespace MerkleSignature.Bytes

/-- Nothing but the number modulo `256 ^ width` is written into a field. -/
theorem toBigEndian_mod (width x : Nat) :
    toBigEndian width (x % 256 ^ width) = toBigEndian width x := by
  apply ofBigEndian_inj
  · rw [length_toBigEndian, length_toBigEndian]
  · rw [ofBigEndian_toBigEndian_mod, ofBigEndian_toBigEndian_mod, Nat.mod_mod]

/-- A field that holds zero is clear. -/
theorem toBigEndian_zero (width : Nat) : toBigEndian width 0 = List.replicate width 0 := by
  have hclear := toBigEndian_ofBigEndian (List.replicate width 0)
  rwa [ofBigEndian_replicate_zero, List.length_replicate] at hclear

/-- Each byte of a field stands for its power of 256. -/
theorem toBigEndian_eq_map (width x : Nat) :
    toBigEndian width x =
      (List.range width).map fun i => UInt8.ofNat (x / 256 ^ (width - (i + 1))) := by
  induction width generalizing x with
  | zero => rfl
  | succ width ih =>
    rw [toBigEndian_succ, ih, List.range_succ, List.map_append, List.map_singleton, Nat.sub_self,
      Nat.pow_zero, Nat.div_one]
    congr 1
    refine List.map_congr_left fun i hi => ?_
    have hplace : width + 1 - (i + 1) = width - (i + 1) + 1 := by
      have := List.mem_range.1 hi
      omega
    rw [hplace, Nat.pow_succ', Nat.div_div_eq_div_mul]

/-- Shift the bytes of a word out over those of a buffer, which is given from its last byte on,
until nothing is left of the word. -/
def shiftOut : UInt64 → Bytes → Bytes
  | _, [] => []
  | word, _ :: before =>
    (word &&& 0xFF).toUInt8 :: if word >>> 8 = 0 then before else shiftOut (word >>> 8) before

/-- Clear a buffer and write a word over it, from its last byte on. -/
def writeWord (word : UInt64) (buffer : Bytes) : Bytes :=
  (shiftOut word (buffer.map fun _ => 0).reverse).reverse

/-- Shift bytes into a word. -/
def readWord (bytes : Bytes) : UInt64 :=
  bytes.foldl (fun word byte => word <<< 8 ||| byte.toUInt64) 0

/-- The byte that is written is the last one of the word. -/
theorem toUInt8_and_mask (word : UInt64) : (word &&& 0xFF).toUInt8 = UInt8.ofNat word.toNat := by
  have hmask : (0xFF : UInt64).toNat = 2 ^ 8 - 1 := rfl
  rw [← UInt8.toNat_inj, UInt64.toNat_toUInt8, UInt64.toNat_and, hmask,
    Nat.and_two_pow_sub_one_eq_mod, Nat.mod_mod, UInt8.toNat_ofNat']

/-- Shifting a byte out of a word divides it by 256. -/
theorem toNat_shiftRight_byte (word : UInt64) : (word >>> 8).toNat = word.toNat / 256 := by
  rw [UInt64.toNat_shiftRight, Nat.shiftRight_eq_div_pow]
  rfl

/-- In a clear buffer it does not matter that the writing stops when nothing is left of the word:
the bytes that are not written would have been zero. -/
theorem shiftOut_clear (word : UInt64) (width : Nat) :
    shiftOut word (List.replicate width 0) = (toBigEndian width word.toNat).reverse := by
  induction width generalizing word with
  | zero => rfl
  | succ width ih =>
    rw [List.replicate_succ, shiftOut, toUInt8_and_mask, toBigEndian_succ, List.reverse_append,
      ← toNat_shiftRight_byte]
    split
    next hdone =>
      rw [hdone, UInt64.toNat_zero, toBigEndian_zero, List.reverse_replicate]
      rfl
    next =>
      rw [ih]
      rfl

/-- Writing a word leaves the field of its number, whatever stood in the buffer. -/
theorem writeWord_eq (word : UInt64) (buffer : Bytes) :
    writeWord word buffer = toBigEndian buffer.length word.toNat := by
  rw [writeWord, List.map_const', List.reverse_replicate, shiftOut_clear, List.reverse_reverse]

/-- Shifting a byte into a word multiplies it by 256 and adds the byte, and what passes the word is
lost. -/
theorem toNat_shiftIn (word : UInt64) (byte : UInt8) :
    (word <<< 8 ||| byte.toUInt64).toNat = (256 * word.toNat + byte.toNat) % 2 ^ 64 := by
  have hbyte : byte.toNat < 2 ^ 8 := byte.toNat_lt
  have hshift : (word <<< 8).toNat = 2 ^ 8 * (word.toNat % 2 ^ 56) := by
    rw [UInt64.toNat_shiftLeft, Nat.shiftLeft_eq]
    have hcount : (8 : UInt64).toNat % 64 = 8 := rfl
    rw [hcount]
    omega
  rw [UInt64.toNat_or, hshift, UInt8.toNat_toUInt64, ← Nat.two_pow_add_eq_or_of_lt hbyte]
  omega

/-- What is read is the number that the bytes spell, as far as it fits the word. -/
theorem toNat_readWord (bytes : Bytes) : (readWord bytes).toNat = ofBigEndian bytes % 2 ^ 64 := by
  induction bytes using List.reverseRecOn with
  | nil => rfl
  | append_singleton bytes byte ih =>
    have hlast : readWord (bytes ++ [byte]) = readWord bytes <<< 8 ||| byte.toUInt64 := by
      rw [readWord, List.foldl_append]
      rfl
    rw [hlast, toNat_shiftIn, ih, ofBigEndian_append_singleton, Nat.add_mod, Nat.mul_mod_mod,
      ← Nat.add_mod]

/-- Eight bytes fit a word. -/
theorem toNat_readWord_of_le {bytes : Bytes} (h : bytes.length ≤ 8) :
    (readWord bytes).toNat = ofBigEndian bytes := by
  rw [toNat_readWord]
  apply Nat.mod_eq_of_lt
  calc ofBigEndian bytes
    _ < 256 ^ bytes.length := ofBigEndian_lt bytes
    _ ≤ 256 ^ 8 := Nat.pow_le_pow_right (by decide) h
    _ = 2 ^ 64 := by decide

/-- Words and fields of bytes stand for the same numbers. Whatever stands in a buffer, a word that
is written over it leaves its number modulo `256 ^ width`, where `width` is the length of the
buffer: byte by byte, and as what the field spells. Out of at most eight bytes the word is read back
modulo the same power, and bytes that are read and written again are the same bytes. -/
theorem words_fill_fields :
    (∀ (word : UInt64) (buffer : Bytes),
      writeWord word buffer = toBigEndian buffer.length word.toNat ∧
      writeWord word buffer = ((List.range buffer.length).map fun i =>
        UInt8.ofNat (word.toNat % 256 ^ buffer.length / 256 ^ (buffer.length - (i + 1)))) ∧
      ofBigEndian (writeWord word buffer) = word.toNat % 256 ^ buffer.length ∧
      (buffer.length ≤ 8 →
        (readWord (writeWord word buffer)).toNat = word.toNat % 256 ^ buffer.length)) ∧
    ∀ bytes : Bytes, bytes.length ≤ 8 →
      (readWord bytes).toNat = ofBigEndian bytes ∧
      ∀ buffer : Bytes, buffer.length = bytes.length →
        writeWord (readWord bytes) buffer = bytes := by
  refine ⟨fun word buffer => ?_, fun bytes hbytes => ?_⟩
  · have hspelled : ofBigEndian (writeWord word buffer) = word.toNat % 256 ^ buffer.length := by
      rw [writeWord_eq, ofBigEndian_toBigEndian_mod]
    refine ⟨writeWord_eq word buffer, ?_, hspelled, fun hbuffer => ?_⟩
    · rw [writeWord_eq, ← toBigEndian_mod, toBigEndian_eq_map]
    · have hlength : (writeWord word buffer).length = buffer.length := by
        rw [writeWord_eq, length_toBigEndian]
      rw [toNat_readWord_of_le (hlength ▸ hbuffer), hspelled]
  · have hread := toNat_readWord_of_le hbytes
    refine ⟨hread, fun buffer hbuffer => ?_⟩
    rw [writeWord_eq, hread, hbuffer, toBigEndian_ofBigEndian]

/-- A word with a zero byte inside that is wider than the buffer, which is not clear. -/
theorem words_fill_fields_innerZero :
    ([0xAA, 0xAA, 0xAA] : Bytes).length ≤ 8 ∧ ([1, 0, 2] : Bytes).length ≤ 8 ∧
      writeWord 0x7F010002 [0xAA, 0xAA, 0xAA] = [1, 0, 2] ∧
      (readWord (writeWord 0x7F010002 [0xAA, 0xAA, 0xAA])).toNat = 0x7F010002 % 256 ^ 3 ∧
      writeWord (readWord [1, 0, 2]) [0xAA, 0xAA, 0xAA] = [1, 0, 2] := by
  obtain ⟨hwrite, hread⟩ := words_fill_fields
  obtain ⟨-, hbytes, -, hback⟩ := hwrite 0x7F010002 [0xAA, 0xAA, 0xAA]
  exact ⟨by decide, by decide, hbytes, hback (by decide),
    (hread [1, 0, 2] (by decide)).2 [0xAA, 0xAA, 0xAA] rfl⟩

/-- Of a number that is too wide the low-order byte is kept, and a number that is too small is
padded. -/
example : writeWord 0x1FF [0] = [0xFF] ∧ writeWord 3 [9, 9, 9, 9, 9, 9, 9, 9, 9, 9] =
    [0, 0, 0, 0, 0, 0, 0, 0, 0, 3] := by decide

end MerkleSignature.Bytes
