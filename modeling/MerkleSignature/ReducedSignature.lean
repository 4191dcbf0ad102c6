import MerkleSignature.LTree
import MerkleSignature.Tree.AuthPath
import MerkleSignature.Winternitz.OneTime

/-!
# Reduced signatures

A reduced signature is the share of one tree in a signature: a one-time signature by one of its
leaves and the authentication path of that leaf. Together with the signed block it determines a
root.
-/

namespace MerkleSignature

/-- A one-time signature and the authentication path of its leaf. -/
structure ReducedSignature where
  oneTime : Bytes
  path : List Bytes
  deriving DecidableEq

namespace ReducedSignature

/-- The root of the tree that the signature of a block by a leaf commits to. -/
def recoverRoot (r : ReducedSignature) (s : Winternitz.OneTime) (block : Bytes)
    (position : TreePosition) (leaf : Nat) : Except Error Bytes := do
  let publicKey ← s.recover r.oneTime block position leaf
  let value ← LTree.root s.digest publicKey s.publicSeed position leaf
  rootFromPath (s.digest.hashTreeJoin s.publicSeed position) leaf 0 value r.path

/-- The one-time signature followed by the path. -/
def encode (r : ReducedSignature) : Bytes := r.oneTime ++ r.path.flatten

/-- Split an encoding into a one-time signature of a known size and `n`-byte path nodes. -/
def decode (oneTimeSize n : Nat) (bytes : Bytes) : ReducedSignature :=
  ⟨bytes.take oneTimeSize, chunks n (bytes.drop oneTimeSize)⟩

end ReducedSignature

end MerkleSignature
