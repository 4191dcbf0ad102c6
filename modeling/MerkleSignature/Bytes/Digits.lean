import MerkleSignature.Bytes

/-!
# Digits of byte strings

A byte string is read as a sequence of bit groups of one width that divides 8, most significant
bits first. Behind its end a byte string is continued by zero bytes, so any number of digits can be
read.
-/

namespace MerkleSignature.Bytes

/-- The digits of `width` bits in one byte, most significant first. -/
def byteDigits (width : Nat) (byte : UInt8) : List Nat :=
  (List.range (8 / width)).map fun i => (byte.toNat >>> (8 - width * (i + 1))) % 2 ^ width

/-- The first `count` digits of `width` bits in a byte string that zero bytes continue. -/
def digits (width count : Nat) (bytes : Bytes) : List Nat :=
  (bytes.flatMap (byteDigits width) ++ List.replicate count 0).take count

/-- As many digits are read as asked for. -/
@[simp] theorem length_digits (width count : Nat) (bytes : Bytes) :
    (digits width count bytes).length = count := by
  simp [digits]

/-- Every digit of `width` bits is below `2 ^ width`. -/
theorem digits_lt {width count : Nat} {bytes : Bytes} {digit : Nat}
    (hdigit : digit ∈ digits width count bytes) : digit < 2 ^ width := by
  have hpos : 0 < 2 ^ width := Nat.two_pow_pos width
  rcases List.mem_append.1 (List.mem_of_mem_take hdigit) with hbyte | hzero
  · obtain ⟨byte, -, hbyte⟩ := List.mem_flatMap.1 hbyte
    obtain ⟨i, -, rfl⟩ := List.mem_map.1 hbyte
    exact Nat.mod_lt _ hpos
  · rw [(List.mem_replicate.1 hzero).2]
    exact hpos

end MerkleSignature.Bytes
