import MerkleSignature.Bytes.BigEndian

/-!
# Byte strings of fixed fields

Keys, signatures and public keys are encoded as concatenations of fields of known sizes. Cutting
such a concatenation gives the fields back, and a number that fits its field is read back from it.
-/

namespace MerkleSignature

variable {α : Type}

/-- A concatenation of pieces of one size is as long as all of them together. -/
theorem length_flatten_of_forall {size : Nat} {xs : List (List α)}
    (h : ∀ piece ∈ xs, piece.length = size) : xs.flatten.length = xs.length * size := by
  induction xs with
  | nil => simp
  | cons piece xs ih =>
    rw [List.flatten_cons, List.length_append, h piece List.mem_cons_self,
      ih fun other hother => h other (List.mem_cons_of_mem piece hother), List.length_cons,
      Nat.succ_mul, Nat.add_comm]

/-- Pieces of one size are cut out of their concatenation. -/
theorem pieces_flatten {size : Nat} {xs : List (List α)} (h : ∀ piece ∈ xs, piece.length = size) :
    pieces size xs.length xs.flatten = xs := by
  induction xs with
  | nil => rfl
  | cons piece xs ih =>
    have hpiece := h piece List.mem_cons_self
    rw [List.length_cons, List.flatten_cons, pieces, List.take_left' hpiece, List.drop_left' hpiece,
      ih fun other hother => h other (List.mem_cons_of_mem piece hother)]

/-- Cutting undoes concatenation. -/
theorem chunks_flatten {size : Nat} (hsize : 0 < size) {xs : List (List α)}
    (h : ∀ piece ∈ xs, piece.length = size) : chunks size xs.flatten = xs := by
  rw [chunks, length_flatten_of_forall h, Nat.mul_div_cancel _ hsize]
  exact pieces_flatten h

/-- A list as long as some pieces of one size is cut into these pieces. -/
theorem chunks_eq_pieces {size count : Nat} (hsize : 0 < size) {xs : List α}
    (h : xs.length = count * size) : chunks size xs = pieces size count xs := by
  rw [chunks, h, Nat.mul_div_cancel _ hsize]

/-- Concatenation undoes cutting when no remainder is dropped. -/
theorem flatten_chunks {size count : Nat} (hsize : 0 < size) {xs : List α}
    (h : xs.length = count * size) : (chunks size xs).flatten = xs := by
  rw [chunks_eq_pieces hsize h, flatten_pieces]
  exact List.take_of_length_le (Nat.le_of_eq (h.trans (Nat.mul_comm count size)))

/-- A piece is found behind the pieces before it. -/
theorem take_drop_flatten {size : Nat} {xs : List (List α)} (h : ∀ piece ∈ xs, piece.length = size)
    {i : Nat} (hi : i < xs.length) : (xs.flatten.drop (i * size)).take size = xs[i] := by
  induction xs generalizing i with
  | nil => exact absurd hi (Nat.not_lt_zero i)
  | cons piece xs ih =>
    have hpiece := h piece List.mem_cons_self
    rw [List.flatten_cons]
    cases i with
    | zero => rw [Nat.zero_mul, List.drop_zero, List.take_left' hpiece, List.getElem_cons_zero]
    | succ i =>
      rw [Nat.succ_mul, Nat.add_comm, ← List.drop_drop, List.drop_left' hpiece,
        List.getElem_cons_succ]
      exact ih (fun other hother => h other (List.mem_cons_of_mem piece hother))
        (Nat.lt_of_succ_lt_succ hi)

namespace Bytes

/-- One more byte at the end multiplies a number by 256 and adds the byte. -/
theorem ofBigEndian_append_singleton (bytes : Bytes) (byte : UInt8) :
    ofBigEndian (bytes ++ [byte]) = 256 * ofBigEndian bytes + byte.toNat := by
  rw [ofBigEndian, List.foldl_append]
  rfl

/-- A number is read back from its field modulo what the field can hold. -/
theorem ofBigEndian_toBigEndian_mod (width x : Nat) :
    ofBigEndian (toBigEndian width x) = x % 256 ^ width := by
  induction width generalizing x with
  | zero => exact (Nat.mod_one x).symm
  | succ width ih =>
    have hlast : (UInt8.ofNat x).toNat = x % 256 := UInt8.toNat_ofNat'
    rw [toBigEndian_succ, ofBigEndian_append_singleton, ih, hlast, Nat.pow_succ', Nat.mod_mul,
      Nat.add_comm]

/-- A number that fits its field is read back. -/
theorem ofBigEndian_toBigEndian {width x : Nat} (h : x < 256 ^ width) :
    ofBigEndian (toBigEndian width x) = x := by
  rw [ofBigEndian_toBigEndian_mod, Nat.mod_eq_of_lt h]

/-- Zero bytes spell zero. -/
theorem ofBigEndian_replicate_zero (count : Nat) : ofBigEndian (List.replicate count 0) = 0 := by
  induction count with
  | zero => rfl
  | succ count ih => rw [List.replicate_succ', ofBigEndian_append_singleton, ih]; rfl

/-- Numbers that fit a field are told apart by it. -/
theorem toBigEndian_inj {width x y : Nat} (hx : x < 256 ^ width) (hy : y < 256 ^ width)
    (h : toBigEndian width x = toBigEndian width y) : x = y := by
  rw [← ofBigEndian_toBigEndian hx, ← ofBigEndian_toBigEndian hy, h]

end Bytes

end MerkleSignature
