import Mathlib.Data.Nat.Digits.Lemmas
import MerkleSignature.Bytes.Digits
import MerkleSignature.Proofs.Bytes

/-!
# What digits of byte strings spell

The digits of one byte, read as a number, are the byte, so the digits of a byte string spell the
number that its bytes spell. A byte string that is read only in part, or beyond its end, spells that
number shifted accordingly. As many digits as a byte string has determine it.
-/

namespace MerkleSignature.Bytes

/-- A byte string is the field that holds its number. -/
theorem toBigEndian_ofBigEndian (bytes : Bytes) :
    toBigEndian bytes.length (ofBigEndian bytes) = bytes := by
  induction bytes using List.reverseRecOn with
  | nil => rfl
  | append_singleton bytes byte ih =>
    have hbyte : byte.toNat < 256 := byte.toNat_lt
    have hquotient : (256 * ofBigEndian bytes + byte.toNat) / 256 = ofBigEndian bytes := by omega
    have hlast : UInt8.ofNat (256 * ofBigEndian bytes + byte.toNat) = byte := by
      rw [← UInt8.toNat_inj, UInt8.toNat_ofNat']
      omega
    rw [List.length_append, List.length_singleton, ofBigEndian_append_singleton, toBigEndian_succ,
      hquotient, hlast, ih]

/-- Byte strings of one length that spell the same number are the same. -/
theorem ofBigEndian_inj {a b : Bytes} (hlength : a.length = b.length)
    (h : ofBigEndian a = ofBigEndian b) : a = b := by
  rw [← toBigEndian_ofBigEndian a, ← toBigEndian_ofBigEndian b, hlength, h]

/-- A byte string spells a number that fits a field of its length. -/
theorem ofBigEndian_lt (bytes : Bytes) : ofBigEndian bytes < 256 ^ bytes.length := by
  induction bytes using List.reverseRecOn with
  | nil => exact Nat.one_pos
  | append_singleton bytes byte ih =>
    have hbyte : byte.toNat < 256 := byte.toNat_lt
    rw [ofBigEndian_append_singleton, List.length_append, List.length_singleton, Nat.pow_succ]
    omega

/-- The number that digits in a base spell, most significant digit first. -/
def spell (base : Nat) (digits : List Nat) : Nat := Nat.ofDigits base digits.reverse

theorem spell_append (base : Nat) (first second : List Nat) :
    spell base (first ++ second) = spell base first * base ^ second.length + spell base second := by
  rw [spell, List.reverse_append, Nat.ofDigits_append, List.length_reverse, Nat.add_comm,
    Nat.mul_comm]
  rfl

/-- Zeros spell nothing. -/
theorem spell_replicate_zero (base count : Nat) : spell base (List.replicate count 0) = 0 := by
  rw [spell, List.reverse_replicate, Nat.ofDigits_replicate_zero]

/-- Digits that are cut off at the end are divided away. -/
theorem spell_take {base : Nat} (hbase : 0 < base) {digits : List Nat}
    (hdigits : ∀ digit ∈ digits, digit < base) (count : Nat) :
    spell base (digits.take count) = spell base digits / base ^ (digits.length - count) := by
  rw [spell, List.reverse_take, ← Nat.ofDigits_div_pow_eq_ofDigits_drop _ hbase]
  · rfl
  · exact fun digit h => hdigits digit (List.mem_reverse.1 h)

/-- Larger digits spell a larger number. -/
theorem spell_le_spell (base : Nat) {first second : List Nat}
    (h : List.Forall₂ (· ≤ ·) first second) : spell base first ≤ spell base second := by
  induction h with
  | nil => exact Nat.le_refl _
  | @cons d e first second hle hrest ih =>
    rw [← List.singleton_append, spell_append, ← List.singleton_append (l := second), spell_append,
      hrest.length_eq]
    have hhead : spell base [d] ≤ spell base [e] := by simpa [spell] using hle
    exact Nat.add_le_add (Nat.mul_le_mul_right _ hhead) ih

/-- The leading digits of a number of `total` digits spell what is left of it when the others are
divided away. -/
theorem spell_leading {base number total count : Nat} (hnumber : number < base ^ total)
    (hcount : count ≤ total) :
    spell base ((List.range count).map fun i => number / base ^ (total - (i + 1)) % base) =
      number / base ^ (total - count) := by
  induction count with
  | zero => exact (Nat.div_eq_of_lt hnumber).symm
  | succ count ih =>
    have hplace : total - count = total - (count + 1) + 1 := by omega
    rw [List.range_succ, List.map_append, spell_append, ih (Nat.le_of_succ_le hcount), hplace,
      Nat.pow_succ, ← Nat.div_div_eq_div_mul]
    simp [spell, Nat.div_add_mod']

section Widths

variable {width : Nat} (hwidth : width ∣ 8)
include hwidth

/-- A byte has as many digits as fit into it. -/
theorem length_byteDigits (byte : UInt8) : width * (byteDigits width byte).length = 8 := by
  rw [byteDigits, List.length_map, List.length_range, Nat.mul_div_cancel' hwidth]

/-- The digits of a byte spell the byte. -/
theorem spell_byteDigits (byte : UInt8) :
    spell (2 ^ width) (byteDigits width byte) = byte.toNat := by
  obtain ⟨total, htotal⟩ := hwidth
  have hpos : 0 < width := Nat.pos_of_ne_zero (by rintro rfl; omega)
  have hbyte : byte.toNat < (2 ^ width) ^ total := by
    rw [← Nat.pow_mul, ← htotal]
    exact byte.toNat_lt
  have hdigits : byteDigits width byte =
      (List.range total).map fun i => byte.toNat / (2 ^ width) ^ (total - (i + 1)) % 2 ^ width := by
    rw [byteDigits, htotal, Nat.mul_div_cancel_left total hpos]
    refine List.map_congr_left fun i _ => ?_
    rw [Nat.shiftRight_eq_div_pow, ← Nat.mul_sub, Nat.pow_mul]
  rw [hdigits, spell_leading hbyte (Nat.le_refl total), Nat.sub_self, Nat.pow_zero, Nat.div_one]

/-- All digits of some bytes take up the bits of the bytes. -/
theorem length_flatMap_byteDigits (bytes : Bytes) :
    width * (bytes.flatMap (byteDigits width)).length = 8 * bytes.length := by
  induction bytes with
  | nil => rfl
  | cons byte bytes ih =>
    rw [List.flatMap_cons, List.length_append, Nat.mul_add, ih, length_byteDigits hwidth,
      List.length_cons]
    omega

/-- All digits of some bytes spell the number of the bytes. -/
theorem spell_flatMap_byteDigits (bytes : Bytes) :
    spell (2 ^ width) (bytes.flatMap (byteDigits width)) = ofBigEndian bytes := by
  induction bytes using List.reverseRecOn with
  | nil => rfl
  | append_singleton bytes byte ih =>
    have hbyte : (2 ^ width) ^ (byteDigits width byte).length = 256 := by
      rw [← Nat.pow_mul, length_byteDigits hwidth]
    rw [List.flatMap_append, List.flatMap_singleton, spell_append, ih, hbyte,
      spell_byteDigits hwidth, ofBigEndian_append_singleton, Nat.mul_comm]

/-- The first digits of a byte string that zero bytes continue spell the number of its bits, moved
up or down to where the digits end. -/
theorem spell_digits (count : Nat) (bytes : Bytes) :
    spell (2 ^ width) (digits width count bytes) =
      ofBigEndian bytes * 2 ^ (width * count) / 256 ^ bytes.length := by
  have hdigit : ∀ digit ∈ bytes.flatMap (byteDigits width) ++ List.replicate count 0,
      digit < 2 ^ width := by
    intro digit h
    rcases List.mem_append.1 h with hbyte | hzero
    · obtain ⟨byte, -, hbyte⟩ := List.mem_flatMap.1 hbyte
      obtain ⟨i, -, rfl⟩ := List.mem_map.1 hbyte
      exact Nat.mod_lt _ (Nat.two_pow_pos width)
    · exact (List.mem_replicate.1 hzero).2 ▸ Nat.two_pow_pos width
  have hbits : (2 ^ width) ^ (bytes.flatMap (byteDigits width)).length = 256 ^ bytes.length := by
    rw [← Nat.pow_mul, length_flatMap_byteDigits hwidth, Nat.pow_mul]
  rw [digits, spell_take (Nat.two_pow_pos width) hdigit, spell_append, spell_replicate_zero,
    spell_flatMap_byteDigits hwidth, List.length_append, List.length_replicate, Nat.add_sub_cancel,
    hbits, Nat.add_zero, ← Nat.pow_mul]

/-- As many digits as a byte string has spell its number. -/
theorem spell_digits_of_eq {count : Nat} {bytes : Bytes}
    (hcount : width * count = 8 * bytes.length) :
    spell (2 ^ width) (digits width count bytes) = ofBigEndian bytes := by
  rw [spell_digits hwidth, hcount, Nat.pow_mul]
  exact Nat.mul_div_cancel _ (Nat.pow_pos (by decide))

/-- As many digits as a byte string has determine it. -/
theorem digits_inj {count : Nat} {a b : Bytes} (hlength : a.length = b.length)
    (hcount : width * count = 8 * a.length) (h : digits width count a = digits width count b) :
    a = b := by
  apply ofBigEndian_inj hlength
  rw [← spell_digits_of_eq hwidth hcount, h, spell_digits_of_eq hwidth (hlength ▸ hcount)]

end Widths

end MerkleSignature.Bytes
