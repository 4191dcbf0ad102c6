import MerkleSignature.Bytes.BigEndian
import MerkleSignature.Seeds

/-!
# What a private key stores

A private key is determined by the index of its next signature, two secret seeds, the public seed
and the root. These fields are what is saved; everything else that a key keeps in memory follows
from them.
-/

namespace MerkleSignature

/-- The stored fields of a private key. -/
structure KeyRecord where
  /-- The index of the next signature. -/
  index : Nat
  seeds : SecretSeeds
  publicSeed : Bytes
  root : Bytes
  deriving DecidableEq

namespace KeyRecord

/-- The index in `indexSize` bytes, the seeds and the root, one after the other. -/
def encode (indexSize : Nat) (r : KeyRecord) : Bytes :=
  Bytes.toBigEndian indexSize r.index ++
    (r.seeds.secretSeed ++ (r.seeds.prfKey ++ (r.publicSeed ++ r.root)))

/-- Cut an encoding into an index of `indexSize` bytes and four fields of `n` bytes. -/
def decode (indexSize n : Nat) (bytes : Bytes) : KeyRecord :=
  let field (i : Nat) : Bytes := (bytes.drop (indexSize + i * n)).take n
  { index := Bytes.ofBigEndian (bytes.take indexSize)
    seeds := ⟨field 0, field 1⟩
    publicSeed := field 2
    root := field 3 }

end KeyRecord

end MerkleSignature
