import Mathlib.Data.Set.Function
import MerkleSignature.Proofs.Bounded.Digits

/-!
# Digits are groups of bits

A byte string is a string of bits, those of each byte most significant first. Its digits of `width`
bits are the groups of `width` bits from the front on, each read as a number, where zero bytes
continue the byte string as far as digits are asked for.

Digits of one bit are the bits, and digits of every width spell the bytes moved to where the digits
end. So the digits in front of a position spell the same number as the bits in front of it. Grouping
bits keeps the number that they spell, and a number has only one string of digits of a given length,
so the digits are the groups.
-/

namespace MerkleSignature.Bytes

/-- The bits of a byte, most significant first. -/
def byteBits (byte : UInt8) : List Bool := (List.range 8).map fun i => byte.toNat.testBit (7 - i)

/-- The bits of a byte string. -/
def bits (bytes : Bytes) : List Bool := bytes.flatMap byteBits

/-- A byte string has eight bits for every byte. -/
@[simp] theorem length_bits (bytes : Bytes) : (bits bytes).length = 8 * bytes.length := by
  induction bytes with
  | nil => rfl
  | cons byte bytes ih =>
    rw [bits, List.flatMap_cons, List.length_append, ← bits, ih, byteBits, List.length_map,
      List.length_range, List.length_cons, Nat.mul_succ, Nat.add_comm]

theorem bits_append (first second : Bytes) : bits (first ++ second) = bits first ++ bits second :=
  List.flatMap_append

/-- The bits of zero bytes are zero. -/
theorem bits_replicate_zero (zeros : Nat) :
    bits (List.replicate zeros 0) = List.replicate (8 * zeros) false := by
  have hbyte : byteBits 0 = List.replicate 8 false := by decide
  rw [bits, List.flatMap_replicate, hbyte, List.flatten_replicate_replicate, Nat.mul_comm]

/-- The number that bits spell. -/
def spellBits (bits : List Bool) : Nat := spell 2 (bits.map Bool.toNat)

theorem spellBits_append (first second : List Bool) :
    spellBits (first ++ second) = spellBits first * 2 ^ second.length + spellBits second := by
  rw [spellBits, List.map_append, spell_append, List.length_map]
  rfl

/-- Bits spell a number that has no more bits. -/
theorem spellBits_lt (bits : List Bool) : spellBits bits < 2 ^ bits.length := by
  have hbit : ∀ bit ∈ (bits.map Bool.toNat).reverse, bit < 2 := by
    intro bit h
    obtain ⟨b, -, rfl⟩ := List.mem_map.1 (List.mem_reverse.1 h)
    exact b.toNat_lt
  have hlt := Nat.ofDigits_lt_base_pow_length (by decide) hbit
  rwa [List.length_reverse, List.length_map] at hlt

/-- Groups of bits, each read as one digit, spell the number of the bits. -/
theorem spell_map_pieces (width : Nat) {count : Nat} {bits : List Bool}
    (hfit : width * count ≤ bits.length) :
    spell (2 ^ width) ((pieces width count bits).map spellBits) =
      spellBits (bits.take (width * count)) := by
  induction count generalizing bits with
  | zero => rfl
  | succ count ih =>
    rw [Nat.mul_succ] at hfit
    have hrest : width * count ≤ (bits.drop width).length := by
      rw [List.length_drop]
      omega
    have hgroup (group : List Bool) : spell (2 ^ width) [spellBits group] = spellBits group := by
      simp [spell]
    rw [pieces, List.map_cons, ← List.singleton_append, spell_append, hgroup, ih hrest,
      List.length_map, length_pieces, ← Nat.pow_mul, Nat.mul_succ, Nat.add_comm (width * count),
      List.take_add, spellBits_append, List.length_take_of_le hrest]

/-- As many digits that spell the same number are the same digits. -/
theorem spell_inj {base : Nat} (hbase : 1 < base) {first second : List Nat}
    (hlength : first.length = second.length) (hfirst : ∀ digit ∈ first, digit < base)
    (hsecond : ∀ digit ∈ second, digit < base) (h : spell base first = spell base second) :
    first = second := by
  apply List.reverse_injective
  apply Nat.ofDigits_inj_of_len_eq hbase (by simpa using hlength) _ _ h
  · exact fun digit hdigit => hfirst digit (List.mem_reverse.1 hdigit)
  · exact fun digit hdigit => hsecond digit (List.mem_reverse.1 hdigit)

/-- The digits of one bit in a byte are its bits. -/
theorem byteDigits_one (byte : UInt8) : byteDigits 1 byte = (byteBits byte).map Bool.toNat := by
  rw [byteDigits, byteBits, List.map_map]
  refine List.map_congr_left fun i _ => ?_
  rw [Function.comp_apply, Nat.toNat_testBit, Nat.shiftRight_eq_div_pow, Nat.one_mul,
    Nat.add_comm i 1, ← Nat.sub_sub]

/-- The first digits of one bit are the first bits, where zero bytes continue the byte string far
enough. -/
theorem digits_one {count zeros : Nat} {bytes : Bytes}
    (hfit : count ≤ 8 * (bytes.length + zeros)) :
    digits 1 count bytes =
      ((bits (bytes ++ List.replicate zeros 0)).take count).map Bool.toNat := by
  have hbits : bytes.flatMap (byteDigits 1) = (bits bytes).map Bool.toNat := by
    rw [bits, List.map_flatMap]
    exact List.flatMap_congr fun byte _ => byteDigits_one byte
  -- Both sides are the bits of the byte string and then zeros; there are enough of them on both.
  have hzeros : min (count - 8 * bytes.length) count =
      min (count - 8 * bytes.length) (8 * zeros) := by omega
  rw [digits, hbits, bits_append, bits_replicate_zero, List.map_take, List.map_append,
    List.map_replicate, List.take_append, List.take_append, List.take_replicate,
    List.take_replicate, List.length_map, length_bits, hzeros]
  rfl

section Widths

variable {width : Nat} (hwidth : width ∣ 8) {count zeros : Nat} {bytes : Bytes}
  (hfit : width * count ≤ 8 * (bytes.length + zeros))
include hwidth hfit

/-- The first digits of a byte string spell the number of as many bits as they have. -/
theorem spell_digits_eq_spellBits :
    spell (2 ^ width) (digits width count bytes) =
      spellBits ((bits (bytes ++ List.replicate zeros 0)).take (width * count)) := by
  have hbits := spell_digits (Nat.one_dvd 8) (width * count) bytes
  rw [Nat.pow_one, Nat.one_mul, digits_one hfit] at hbits
  rw [spell_digits hwidth, spellBits, hbits]

/-- The digits of a byte string are the groups of its bits. -/
theorem digits_eq_map_pieces :
    digits width count bytes =
      (pieces width count (bits (bytes ++ List.replicate zeros 0))).map spellBits := by
  have hbits : width * count ≤ (bits (bytes ++ List.replicate zeros 0)).length := by
    rwa [length_bits, List.length_append, List.length_replicate]
  have hbase : 1 < 2 ^ width := Nat.one_lt_two_pow (Nat.pos_of_dvd_of_pos hwidth (by decide)).ne'
  apply spell_inj hbase
  · rw [length_digits, List.length_map, length_pieces]
  · exact fun digit hdigit => digits_lt hdigit
  · intro digit hdigit
    obtain ⟨group, hgroup, rfl⟩ := List.mem_map.1 hdigit
    exact length_of_mem_pieces hbits hgroup ▸ spellBits_lt group
  · rw [spell_digits_eq_spellBits hwidth hfit, spell_map_pieces width hbits]

end Widths

/-- Reading digits of 1, 2, 4 or 8 bits one by one, in a word and within its bounds, gives the
digits of a byte string. There are as many as asked for, each below `2 ^ width`. They are the groups
of `width` bits from the front of the byte string, which any sufficient number of zero bytes may
continue, and spell the number of as many bits as they have. As many digits as a byte string has
spell the number of its bytes, and determine it. -/
theorem digits_are_groups_of_bits {width : Nat} (hwidth : width ∈ [1, 2, 4, 8]) (count : Nat) :
    (∀ bytes : Bytes,
      boundedDigits width count bytes = pure (digits width count bytes) ∧
      (digits width count bytes).length = count ∧
      (∀ digit ∈ digits width count bytes, digit < 2 ^ width) ∧
      (∀ zeros, width * count ≤ 8 * (bytes.length + zeros) →
        digits width count bytes =
          (pieces width count (bits (bytes ++ List.replicate zeros 0))).map spellBits ∧
        spell (2 ^ width) (digits width count bytes) =
          spellBits ((bits (bytes ++ List.replicate zeros 0)).take (width * count))) ∧
      (width * count = 8 * bytes.length →
        spell (2 ^ width) (digits width count bytes) = ofBigEndian bytes)) ∧
    Set.InjOn (digits width count) {bytes | width * count = 8 * bytes.length} := by
  have hdvd : width ∣ 8 := by
    simp only [List.mem_cons, List.not_mem_nil, or_false] at hwidth
    rcases hwidth with rfl | rfl | rfl | rfl <;> decide
  refine ⟨fun bytes => ⟨boundedDigits_eq hdvd count bytes, length_digits .., ?_, ?_, ?_⟩, ?_⟩
  · exact fun digit hdigit => digits_lt hdigit
  · exact fun zeros hfit =>
      ⟨digits_eq_map_pieces hdvd hfit, spell_digits_eq_spellBits hdvd hfit⟩
  · exact spell_digits_of_eq hdvd
  · intro a ha b hb h
    have hlength : 8 * a.length = 8 * b.length := ha.symm.trans hb
    exact digits_inj hdvd (by omega) ha h

/-- Digits of two bits: three bytes have twelve of them, and two more lie behind the end. -/
theorem digits_are_groups_of_bits_behindEnd :
    2 ∈ [1, 2, 4, 8] ∧ 2 * 14 ≤ 8 * (([0x1B, 0x00, 0xE4] : Bytes).length + 1) ∧
      2 * 12 = 8 * ([0x1B, 0x00, 0xE4] : Bytes).length ∧
      digits 2 14 [0x1B, 0x00, 0xE4] = [0, 1, 2, 3, 0, 0, 0, 0, 3, 2, 1, 0, 0, 0] ∧
      digits 2 14 [0x1B, 0x00, 0xE4] =
        (pieces 2 14 (bits ([0x1B, 0x00, 0xE4] ++ List.replicate 1 0))).map spellBits ∧
      spell (2 ^ 2) (digits 2 12 [0x1B, 0x00, 0xE4]) = 0x1B00E4 := by
  have hwidth : 2 ∈ [1, 2, 4, 8] := by decide
  have hbehind : 2 * 14 ≤ 8 * (([0x1B, 0x00, 0xE4] : Bytes).length + 1) := by decide
  obtain ⟨-, -, -, hgroups, -⟩ := (digits_are_groups_of_bits hwidth 14).1 [0x1B, 0x00, 0xE4]
  obtain ⟨-, -, -, -, hnumber⟩ := (digits_are_groups_of_bits hwidth 12).1 [0x1B, 0x00, 0xE4]
  exact ⟨hwidth, hbehind, rfl, by decide, (hgroups 1 hbehind).1, hnumber rfl⟩

end MerkleSignature.Bytes
