import MerkleSignature.LTree
import MerkleSignature.Tree.AuthPath
import MerkleSignature.Winternitz.OneTime

/-!
# Trees of one-time keys

The leaves of a signature tree are compressed one-time public keys, and all of them derive from one
secret seed. A key tree says where in the hypertree the tree stands and which seeds it belongs to.
-/

namespace MerkleSignature

/-- The tree of one-time keys at a position. -/
structure KeyTree where
  digest : Digest
  width : Winternitz.Width
  secretSeed : Bytes
  publicSeed : Bytes
  position : TreePosition
  height : Nat

namespace KeyTree

/-- The one-time signatures of the tree. -/
def oneTime (k : KeyTree) : Winternitz.OneTime := ⟨k.digest, k.width, k.publicSeed⟩

/-- The value of a leaf: its compressed one-time public key. -/
def leaf (k : KeyTree) (index : Nat) : Except Error Bytes := do
  let publicKey ← k.oneTime.publicKey k.secretSeed k.position index
  LTree.root k.digest publicKey k.publicSeed k.position index

/-- The tree as a Merkle tree. -/
def tree (k : KeyTree) : MerkleTree where
  height := k.height
  leaf := k.leaf
  join := k.digest.hashTreeJoin k.publicSeed k.position

/-- Sign a block of `n` bytes with the one-time key of a leaf. -/
def signLeaf (k : KeyTree) (block : Bytes) (leaf : Nat) : Except Error Bytes :=
  k.oneTime.sign block k.secretSeed k.position leaf

end KeyTree

end MerkleSignature
