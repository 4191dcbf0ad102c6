import MerkleSignature.Tree.Basic

/-!
# One pass over a subtree

The root of a subtree is computed in one pass over its leaves, from left to right. A stack holds
the roots of the subtrees that are finished but still lack their right neighbour: a new node is
joined with the top of the stack as long as both have one height, and is then pushed. Every node
that arises, leaves included, is shown to a visitor, which collects what it needs in a state of its
own.
-/

namespace MerkleSignature.MerkleTree

/-- The number of leaves that are computed ahead of their reduction. -/
def leafBatch : Nat := 64

/-- Where a range of leaves has to end at the latest. -/
def maxLeafEnd : Nat := wordRange - 1

/-- Join a node with the top of the stack while both have one height, and push the result. The
index is that of the last leaf below the node. -/
def climb {σ : Type} (t : MerkleTree) (visit : σ → Node → Nat → σ) (index : Nat) :
    NodeStack → Node → σ → Except Error (NodeStack × σ)
  | [], node, seen => .ok ([node], seen)
  | top :: rest, node, seen =>
    if top.height = node.height then do
      let parent ← t.combine top node (index >>> (node.height + 1))
      t.climb visit index rest parent (visit seen parent (index >>> parent.height))
    else .ok (node :: top :: rest, seen)

/-- Take in one leaf. -/
def ingest {σ : Type} (t : MerkleTree) (visit : σ → Node → Nat → σ) (pass : NodeStack × σ)
    (leaf : Bytes × Nat) : Except Error (NodeStack × σ) :=
  t.climb visit leaf.2 pass.1 ⟨0, leaf.1⟩ (visit pass.2 ⟨0, leaf.1⟩ leaf.2)

/-- Take in `count` leaves from leaf `start` on, computing `batch` leaves at a time. -/
def passBatches {σ : Type} (t : MerkleTree) (visit : σ → Node → Nat → σ) (batch : Nat) :
    (rounds start count : Nat) → NodeStack × σ → Except Error (NodeStack × σ)
  | 0, _, _, pass => .ok pass
  | rounds + 1, start, count, pass => do
    let size := min batch count
    let leaves ← (List.range' start size).mapM t.leaf
    let pass ← (leaves.zipIdx start).foldlM (t.ingest visit) pass
    t.passBatches visit batch rounds (start + size) (count - size) pass

/-- The root that a finished pass leaves on its stack. -/
def finish (target : Nat) : NodeStack → Except Error Node
  | [] => .error (.heightMismatch target 0)
  | root :: rest =>
    if rest = [] ∧ root.height = target then .ok root
    else .error (.heightMismatch target (NodeStack.topHeight? rest |>.getD 0))

/-- The pass over the subtree of height `target` whose first leaf is `start`, with a given number
of leaves computed ahead. -/
def reduceWith {σ : Type} (t : MerkleTree) (batch : Nat) (visit : σ → Node → Nat → σ)
    (start target : Nat) (seen : σ) : Except Error (Node × σ) := do
  checkTreeHeight target
  let count := 2 ^ target
  if start + count ≤ maxLeafEnd then do
    let (stack, seen) ←
      t.passBatches visit batch ((count + batch - 1) / batch) start count ([], seen)
    return (← finish target stack, seen)
  else throw (.indexOutOfRange (start + count) maxLeafEnd)

/-- The pass over the subtree of height `target` whose first leaf is `start`. -/
def reduce {σ : Type} (t : MerkleTree) (visit : σ → Node → Nat → σ) (start target : Nat)
    (seen : σ) : Except Error (Node × σ) :=
  t.reduceWith leafBatch visit start target seen

/-- The root of the subtree of height `target` whose first leaf is `start`. -/
def subtreeRoot (t : MerkleTree) (start target : Nat) : Except Error Node := do
  let (root, _) ← t.reduce (fun seen _ _ => seen) start target ()
  return root

end MerkleSignature.MerkleTree
