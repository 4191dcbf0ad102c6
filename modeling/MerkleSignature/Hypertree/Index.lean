import MerkleSignature.Bytes

/-!
# Global indices

The index of a signature selects one leaf on every layer of a hypertree. Read in base `2 ^ height`,
its digits are the leaves, the lowest layer first; the number of the tree on a layer is what
remains of the index above the digit of that layer.
-/

namespace MerkleSignature.Hypertree

/-- The number of bits of a leaf index. -/
def leafBits : Nat := 32

/-- The tree and the leaf that an index selects on a layer of trees of the given height. -/
def splitIndex (index height layer : Nat) : Nat × Nat :=
  (index >>> ((layer + 1) * height), (index >>> (layer * height)) % 2 ^ height % 2 ^ leafBits)

end MerkleSignature.Hypertree
