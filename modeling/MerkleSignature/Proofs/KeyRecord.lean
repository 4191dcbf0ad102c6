import MerkleSignature.KeyRecord
import MerkleSignature.Proofs.Bytes.Digits

/-!
# Stored keys are read back

The encoding of the stored fields is a concatenation of fields of known sizes. When the seeds and
the root have `n` bytes and the index fits its field, the fields are read back as they were stored.
-/

namespace MerkleSignature.KeyRecord

/-- The seeds and the root have `n` bytes each, as the encoding assumes. -/
structure Fits (n : Nat) (r : KeyRecord) : Prop where
  length_secretSeed : r.seeds.secretSeed.length = n
  length_prfKey : r.seeds.prfKey.length = n
  length_publicSeed : r.publicSeed.length = n
  length_root : r.root.length = n

/-- The fields behind the index. -/
def fields (r : KeyRecord) : List Bytes :=
  [r.seeds.secretSeed, r.seeds.prfKey, r.publicSeed, r.root]

variable {n indexSize : Nat} {r : KeyRecord}

/-- The encoding is the index followed by the other fields. -/
theorem encode_eq (indexSize : Nat) (r : KeyRecord) :
    r.encode indexSize = Bytes.toBigEndian indexSize r.index ++ r.fields.flatten := by
  simp [encode, fields]

/-- Every field behind the index has `n` bytes. -/
theorem Fits.length_of_mem_fields (h : r.Fits n) : ∀ field ∈ r.fields, field.length = n := by
  intro field hfield
  simp only [fields, List.mem_cons, List.not_mem_nil, or_false] at hfield
  rcases hfield with rfl | rfl | rfl | rfl
  · exact h.length_secretSeed
  · exact h.length_prfKey
  · exact h.length_publicSeed
  · exact h.length_root

/-- The encoding has the size of its fields. -/
theorem Fits.length_encode (h : r.Fits n) (indexSize : Nat) :
    (r.encode indexSize).length = indexSize + 4 * n := by
  rw [encode_eq, List.length_append, Bytes.length_toBigEndian,
    length_flatten_of_forall h.length_of_mem_fields]
  rfl

/-- The bytes of an index field hold every index below a power of two of so many bits. -/
theorem two_pow_le_indexRange (height : Nat) : 2 ^ height ≤ 256 ^ ((height + 7) / 8) := by
  have hpow : 256 ^ ((height + 7) / 8) = 2 ^ (8 * ((height + 7) / 8)) := by
    rw [Nat.pow_mul]
  rw [hpow]
  exact Nat.pow_le_pow_right (by decide) (by omega)

/-- What was stored is read back. -/
theorem Fits.decode_encode (h : r.Fits n) (hindex : r.index < 256 ^ indexSize) :
    decode indexSize n (r.encode indexSize) = r := by
  have hfield : ∀ i (hi : i < r.fields.length),
      ((r.encode indexSize).drop (indexSize + i * n)).take n = r.fields[i] := by
    intro i hi
    rw [encode_eq, ← List.drop_drop, List.drop_left' (Bytes.length_toBigEndian ..)]
    exact take_drop_flatten h.length_of_mem_fields hi
  have hfirst : Bytes.ofBigEndian ((r.encode indexSize).take indexSize) = r.index := by
    rw [encode_eq, List.take_left' (Bytes.length_toBigEndian ..)]
    exact Bytes.ofBigEndian_toBigEndian hindex
  have h0 := hfield 0 (by simp [fields])
  have h1 := hfield 1 (by simp [fields])
  have h2 := hfield 2 (by simp [fields])
  have h3 := hfield 3 (by simp [fields])
  rw [decode]
  dsimp only
  rw [hfirst, h0, h1, h2, h3]
  rfl

/-- What is read from an encoding of the right size has fields of `n` bytes. -/
theorem fits_decode {bytes : Bytes} (h : bytes.length = indexSize + 4 * n) :
    (decode indexSize n bytes).Fits n := by
  have hfield : ∀ i, i < 4 → ((bytes.drop (indexSize + i * n)).take n).length = n := by
    intro i hi
    have hend : (i + 1) * n ≤ 4 * n := Nat.mul_le_mul_right n hi
    rw [Nat.succ_mul] at hend
    rw [List.length_take, List.length_drop]
    omega
  exact ⟨hfield 0 (by decide), hfield 1 (by decide), hfield 2 (by decide), hfield 3 (by decide)⟩

/-- What is read from an encoding of the right size is encoded as it was. -/
theorem encode_decode {bytes : Bytes} (h : bytes.length = indexSize + 4 * n) :
    (decode indexSize n bytes).encode indexSize = bytes := by
  have hfields : (decode indexSize n bytes).fields = pieces n 4 (bytes.drop indexSize) := by
    simp only [fields, decode, pieces, List.drop_drop, Nat.zero_mul, Nat.one_mul, Nat.add_zero]
    rw [show indexSize + n + n = indexSize + 2 * n by omega,
      show indexSize + 2 * n + n = indexSize + 3 * n by omega]
  have hrest : (pieces n 4 (bytes.drop indexSize)).flatten = bytes.drop indexSize := by
    rw [flatten_pieces]
    apply List.take_of_length_le
    rw [List.length_drop]
    omega
  have hindex : Bytes.toBigEndian indexSize (decode indexSize n bytes).index =
      bytes.take indexSize := by
    have hlength : (bytes.take indexSize).length = indexSize := by
      rw [List.length_take]
      omega
    have hfield := Bytes.toBigEndian_ofBigEndian (bytes.take indexSize)
    rwa [hlength] at hfield
  rw [encode_eq, hfields, hrest, hindex, List.take_append_drop]

end MerkleSignature.KeyRecord
