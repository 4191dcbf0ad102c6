import MerkleSignature.Digest.Keyed

/-!
# Join functions

Both kinds of tree, the L-trees and the hash trees, are built by a function that joins two
neighbours into their parent. It is told where the parent stands, so that every join is separated
from all others.
-/

namespace MerkleSignature

/-- Joins two neighbours. The height is that of the children, the index that of the parent one
level up. -/
abbrev Join := (height index : Nat) → (left right : Bytes) → Except Error Bytes

namespace Digest

/-- Joining nodes of the L-tree of a leaf. -/
def lTreeJoin (d : Digest) (publicSeed : Bytes) (position : TreePosition) (leaf : Nat) : Join :=
  fun height index left right =>
    d.joinNodes left right publicSeed (position.lTreeAddress leaf height index)

/-- Joining nodes of a hash tree. -/
def hashTreeJoin (d : Digest) (publicSeed : Bytes) (position : TreePosition) : Join :=
  fun height index left right =>
    d.joinNodes left right publicSeed (position.hashTreeAddress height index)

end Digest

end MerkleSignature
