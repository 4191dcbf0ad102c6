import MerkleSignature.Tree.Pass

/-!
# Authentication paths

The authentication path of a leaf holds, from the leaf level up, the sibling of each node on the
way to the root. With the path, the root can be recomputed from the leaf alone: the bits of the
leaf's index say at each level which of the two nodes is the left one.
-/

namespace MerkleSignature

/-- All nodes of a path that was collected level by level, from `level` on; the lowest missing node
is reported. -/
def completePath : (level : Nat) → List (Option Bytes) → Except Error (List Bytes)
  | _, [] => .ok []
  | level, none :: _ => .error (.authPathUnavailable level)
  | level, some node :: rest => do return node :: (← completePath (level + 1) rest)

/-- Recompute the root from the node above `leaf` at `level` and the rest of the path. -/
def rootFromPath (join : Join) (leaf : Nat) :
    (level : Nat) → Bytes → List Bytes → Except Error Bytes
  | _, node, [] => .ok node
  | level, node, sibling :: rest => do
    let index := leaf >>> (level + 1)
    let parent ←
      if leaf >>> level % 2 = 0 then join level index node sibling
      else join level index sibling node
    rootFromPath join leaf (level + 1) parent rest

namespace MerkleTree

/-- Keep a node of the tree if it belongs to the authentication path of a leaf. -/
def collectSibling (t : MerkleTree) (leaf : Nat) (found : List (Option Bytes)) (node : Node)
    (index : Nat) : List (Option Bytes) :=
  if node.height < t.height ∧ index = (leaf >>> node.height) ^^^ 1 then
    found.set node.height (some node.value)
  else found

/-- The root of the whole tree and the authentication path of a leaf, from one pass. -/
def rootAndPath (t : MerkleTree) (leaf : Nat) : Except Error (Node × List Bytes) := do
  checkTreeHeight t.height
  let (root, found) ← t.reduce (t.collectSibling leaf) 0 t.height (List.replicate t.height none)
  return (root, ← completePath 0 found)

end MerkleTree

end MerkleSignature
