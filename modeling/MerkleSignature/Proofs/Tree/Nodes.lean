import MerkleSignature.Proofs.Outcome
import MerkleSignature.Tree.AuthPath

/-!
# The nodes of a Merkle tree

The node with a given level and index is defined by recursion on the level: a leaf, or the join of
the two nodes below it. The algorithms of the library never follow this recursion, but what they
compute is stated in terms of it.

A tree is total when each of its nodes can be computed. Its nodes then have values, and the
authentication path of a leaf is a list of such values.
-/

namespace MerkleSignature.MerkleTree

/-- The node with a given level and index. -/
def node (t : MerkleTree) : (level index : Nat) → Except Error Bytes
  | 0, index => t.leaf index
  | level + 1, index => do
    let left ← t.node level (2 * index)
    let right ← t.node level (2 * index + 1)
    t.join level index left right

/-- The node with a given level and index as a node with its height: a leaf node, or the combination
of the two nodes below it. -/
def combinedNode (t : MerkleTree) : (level index : Nat) → Except Error Node
  | 0, index => t.leafNode index
  | level + 1, index => do
    let left ← t.combinedNode level (2 * index)
    let right ← t.combinedNode level (2 * index + 1)
    t.combine left right index

/-- Every node of the tree can be computed. -/
def Total (t : MerkleTree) : Prop := ∀ level index, ∃ value, t.node level index = .ok value

/-- The value of a node, which is meaningful when the node can be computed. -/
def nodeValue (t : MerkleTree) (level index : Nat) : Bytes :=
  (t.node level index).toOption.getD []

/-- A node with its value. -/
def nodeAt (t : MerkleTree) (level index : Nat) : Node := ⟨level, t.nodeValue level index⟩

/-- The authentication path of a leaf: the sibling of each node between the leaf and the root. -/
def authPath (t : MerkleTree) (leaf : Nat) : List Bytes :=
  (List.range t.height).map fun level => t.nodeValue level ((leaf >>> level) ^^^ 1)

variable {t : MerkleTree}

/-- The heights of trees are words. -/
theorem lt_wordRange {height : Nat} (h : height ≤ maxTreeHeight) : height < wordRange :=
  Nat.lt_of_le_of_lt h (by decide)

/-- A node that can be computed has the value that it is computed to. -/
theorem nodeValue_eq_of_node {level index : Nat} {value : Bytes}
    (h : t.node level index = .ok value) : t.nodeValue level index = value := by
  rw [nodeValue, h]
  rfl

@[simp] theorem nodeAt_height (level index : Nat) : (t.nodeAt level index).height = level := rfl

@[simp] theorem nodeAt_value (level index : Nat) :
    (t.nodeAt level index).value = t.nodeValue level index := rfl

/-- A path has one node per level below the root. -/
@[simp] theorem length_authPath (leaf : Nat) : (t.authPath leaf).length = t.height := by
  simp [authPath]

/-- The entry of a path at a level is the sibling of the leaf's ancestor there. -/
theorem getElem?_authPath {leaf level : Nat} (h : level < t.height) :
    (t.authPath leaf)[level]? = some (t.nodeValue level ((leaf >>> level) ^^^ 1)) := by
  simp [authPath, h]

namespace Total

/-- In a total tree every node is computed to its value. -/
theorem node_eq (total : t.Total) (level index : Nat) :
    t.node level index = .ok (t.nodeValue level index) := by
  obtain ⟨value, hvalue⟩ := total level index
  rw [nodeValue_eq_of_node hvalue, hvalue]

/-- A leaf is computed to the value of its node on level 0. -/
theorem leaf_eq (total : t.Total) (index : Nat) : t.leaf index = .ok (t.nodeValue 0 index) :=
  total.node_eq 0 index

/-- Some leaves are computed to the values of their nodes. -/
theorem mapM_leaf_eq (total : t.Total) (indices : List Nat) :
    indices.mapM t.leaf = .ok (indices.map (t.nodeValue 0)) :=
  mapM_eq_ok_map fun index _ => total.leaf_eq index

/-- Two neighbours are joined to the value of their parent. -/
theorem join_eq (total : t.Total) (level index : Nat) :
    t.join level index (t.nodeValue level (2 * index)) (t.nodeValue level (2 * index + 1)) =
      .ok (t.nodeValue (level + 1) index) := by
  have h := total.node_eq (level + 1) index
  rwa [node, total.node_eq level (2 * index), total.node_eq level (2 * index + 1)] at h

/-- Two neighbouring nodes are combined to their parent. -/
theorem combine_eq (total : t.Total) {level : Nat} (index : Nat) (hlevel : level + 1 < wordRange) :
    t.combine (t.nodeAt level (2 * index)) (t.nodeAt level (2 * index + 1)) index =
      .ok (t.nodeAt (level + 1) index) := by
  simp only [combine, nodeAt_height, nodeAt_value, if_true, total.join_eq, ok_bind, pure_eq_ok,
    Nat.mod_eq_of_lt hlevel]
  rfl

/-- The leaf node of an index is the node on level 0. -/
theorem leafNode_eq (total : t.Total) (index : Nat) :
    t.leafNode index = .ok (t.nodeAt 0 index) := by
  rw [leafNode, total.leaf_eq]
  rfl

/-- Combining nodes from the leaves up arrives at every node. -/
theorem combinedNode_eq (total : t.Total) {level : Nat} (hlevel : level < wordRange)
    (index : Nat) : t.combinedNode level index = .ok (t.nodeAt level index) := by
  induction level generalizing index with
  | zero => exact total.leafNode_eq index
  | succ level ih =>
    rw [combinedNode, ih (Nat.lt_of_succ_lt hlevel), ok_bind, ih (Nat.lt_of_succ_lt hlevel),
      ok_bind]
    exact total.combine_eq index hlevel

end Total

end MerkleSignature.MerkleTree
