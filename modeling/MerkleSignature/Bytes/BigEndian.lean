import MerkleSignature.Bytes

/-!
# Fixed-width big-endian numbers

A number is written into a field of a given width with its most significant byte first. Fields
wider than the number are padded with zero bytes on the left; of a number that is too wide the
low-order bytes are kept, so a field of `width` bytes holds the number modulo `256 ^ width`.
-/

namespace MerkleSignature.Bytes

/-- The big-endian bytes of `x` modulo `256 ^ width`, written in front of `tail`. -/
def prependBigEndian : (width : Nat) → (x : Nat) → (tail : Bytes) → Bytes
  | 0, _, tail => tail
  | width + 1, x, tail => prependBigEndian width (x / 256) (UInt8.ofNat x :: tail)

/-- The `width` big-endian bytes of `x` modulo `256 ^ width`. -/
def toBigEndian (width x : Nat) : Bytes := prependBigEndian width x []

/-- The number that a byte string spells in base 256, most significant byte first. -/
def ofBigEndian (bytes : Bytes) : Nat := bytes.foldl (fun value byte => 256 * value + byte.toNat) 0

/-- Writing a field in front of a tail is concatenation. -/
theorem prependBigEndian_eq_append (width x : Nat) (tail : Bytes) :
    prependBigEndian width x tail = toBigEndian width x ++ tail := by
  induction width generalizing x tail with
  | zero => rfl
  | succ width ih =>
    rw [toBigEndian, prependBigEndian, prependBigEndian, ih, ih _ [_], List.append_assoc]
    rfl

/-- The last byte of a field is the number modulo 256, the bytes before it hold the quotient. -/
theorem toBigEndian_succ (width x : Nat) :
    toBigEndian (width + 1) x = toBigEndian width (x / 256) ++ [UInt8.ofNat x] := by
  rw [toBigEndian, prependBigEndian, prependBigEndian_eq_append]

/-- A field has its width, whatever number it holds. -/
@[simp] theorem length_toBigEndian (width x : Nat) : (toBigEndian width x).length = width := by
  induction width generalizing x with
  | zero => rfl
  | succ width ih => simp [toBigEndian_succ, ih]

end MerkleSignature.Bytes
