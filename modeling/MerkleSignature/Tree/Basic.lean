import MerkleSignature.Join

/-!
# Merkle trees

A tree is never stored as a whole. It is given by its height, by the way to compute each leaf and
by the function that joins two neighbours. Nodes carry the height at which they stand, so that a
node stack can tell which of its nodes may be joined.
-/

namespace MerkleSignature

/-- How many values a height or a leaf index can have: both are 32-bit words. -/
def wordRange : Nat := 2 ^ 32

/-- A node: its height above the leaves and its value. -/
structure Node where
  height : Nat
  value : Bytes
  deriving DecidableEq

/-- A stack of nodes, the top of the stack first. -/
abbrev NodeStack := List Node

namespace NodeStack

/-- The height of the top node. -/
def topHeight? (stack : NodeStack) : Option Nat := stack.head?.map Node.height

/-- The smallest height among the `count` topmost nodes. -/
def lowestOfTop? (stack : NodeStack) (count : Nat) : Option Nat :=
  ((stack.take count).map Node.height).min?

end NodeStack

/-- The largest height of a tree. -/
def maxTreeHeight : Nat := 20

/-- Refuse a height above the largest one. -/
def checkTreeHeight (height : Nat) : Except Error Unit :=
  if height ≤ maxTreeHeight then .ok () else .error (.invalidTreeHeight height 0 maxTreeHeight)

/-- A tree given by its leaves and its join function. -/
structure MerkleTree where
  height : Nat
  leaf : Nat → Except Error Bytes
  join : Join

namespace MerkleTree

/-- A leaf as a node. -/
def leafNode (t : MerkleTree) (index : Nat) : Except Error Node := do
  return ⟨0, ← t.leaf index⟩

/-- Join two nodes of one height into the parent with the given index one level up. -/
def combine (t : MerkleTree) (left right : Node) (parent : Nat) : Except Error Node :=
  if left.height = right.height then do
    return ⟨(left.height + 1) % wordRange, ← t.join left.height parent left.value right.value⟩
  else .error (.heightMismatch left.height right.height)

end MerkleTree

end MerkleSignature
