import MerkleSignature.Error
import MerkleSignature.Digest.Sha256
import MerkleSignature.Digest.Sha512
import MerkleSignature.Digest.Keccak

/-!
# Digests

The scheme is built over one of four digests. The digest also fixes the security parameter `n`:
seeds, nodes and chain elements are as long as its output.
-/

namespace MerkleSignature

/-- The digests a parameter set can be built over. -/
inductive Digest where
  | sha256
  | sha512
  /-- SHAKE128 read to 32 bytes. -/
  | shake128
  /-- SHAKE256 read to 64 bytes. -/
  | shake256
  deriving DecidableEq

namespace Digest

/-- The canonical name. -/
def name : Digest → String
  | sha256 => "SHA-256"
  | sha512 => "SHA-512"
  | shake128 => "SHAKE128"
  | shake256 => "SHAKE256"

/-- Find a digest by name. Dashes and the case of ASCII letters do not matter. -/
def ofName (name : String) : Except Error Digest :=
  match String.ofList ((name.toList.filter (· != '-')).map Char.toUpper) with
  | "SHA256" => .ok sha256
  | "SHA512" => .ok sha512
  | "SHAKE128" => .ok shake128
  | "SHAKE256" => .ok shake256
  | _ => .error .unsupportedDigest

/-- The output size in bytes, which is the security parameter `n`. -/
def size : Digest → Nat
  | sha256 | shake128 => 32
  | sha512 | shake256 => 64

/-- The digest of a byte string. -/
def hash : Digest → Bytes → Bytes
  | sha256 => Sha256.hash
  | sha512 => Sha512.hash
  | shake128 => Keccak.shake128
  | shake256 => Keccak.shake256

/-- The output of a digest has its size. -/
@[simp] theorem length_hash (d : Digest) (message : Bytes) : (d.hash message).length = d.size := by
  cases d <;> simp [hash, size]

/-- No digest has an empty output. -/
theorem size_pos (d : Digest) : 0 < d.size := by
  cases d <;> decide

end Digest

end MerkleSignature
