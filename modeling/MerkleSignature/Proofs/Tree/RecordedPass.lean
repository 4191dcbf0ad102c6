import MerkleSignature.Proofs.Recorded
import MerkleSignature.Tree.Pass

/-!
# The pass over a subtree with a record

A tree whose leaves and joins keep a record is passed over as any tree is. The stack of the pass can
be put on record as well: it is looked at whenever a node is taken off it or put onto it. Without
the record the pass is that of the tree whose leaves and joins are the values.
-/

namespace MerkleSignature

/-- A tree given by its leaves and its join function, which keep a record, and by what is recorded
of the stack of a pass. -/
structure RecordedTree (κ : Type) where
  height : Nat
  leaf : Nat → Recorded κ Bytes
  join : RecordedJoin κ
  onStack : NodeStack → List κ

namespace RecordedTree

variable {κ σ : Type} (t : RecordedTree κ) (visit : σ → Node → Nat → σ)

/-- The tree without its record. -/
def value : MerkleTree where
  height := t.height
  leaf index := (t.leaf index).value
  join := RecordedJoin.value t.join

/-- Join two nodes of one height, with a record. -/
def combine (left right : Node) (parent : Nat) : Recorded κ Node :=
  if left.height = right.height then do
    let value ← t.join left.height parent left.value right.value
    return ⟨(left.height + 1) % wordRange, value⟩
  else liftM (.error (.heightMismatch left.height right.height) : Except Error Node)

/-- Join a node with the top of the stack while both have one height, and push the result, with a
record. -/
def climb (index : Nat) : NodeStack → Node → σ → Recorded κ (NodeStack × σ)
  | [], node, seen => do
    tell (t.onStack [node])
    return ([node], seen)
  | top :: rest, node, seen =>
    if top.height = node.height then do
      tell (t.onStack rest)
      let parent ← t.combine top node (index >>> (node.height + 1))
      climb index rest parent (visit seen parent (index >>> parent.height))
    else do
      tell (t.onStack (node :: top :: rest))
      return (node :: top :: rest, seen)

/-- Take in one leaf, with a record. -/
def ingest (pass : NodeStack × σ) (leaf : Bytes × Nat) : Recorded κ (NodeStack × σ) :=
  t.climb visit leaf.2 pass.1 ⟨0, leaf.1⟩ (visit pass.2 ⟨0, leaf.1⟩ leaf.2)

/-- Take in `count` leaves from leaf `start` on, computing `batch` leaves at a time, with a
record. -/
def passBatches (batch : Nat) :
    (rounds start count : Nat) → NodeStack × σ → Recorded κ (NodeStack × σ)
  | 0, _, _, pass => pure pass
  | rounds + 1, start, count, pass => do
    let size := min batch count
    let leaves ← Recorded.forEach t.leaf (List.range' start size)
    let pass ← Recorded.foldEach (t.ingest visit) pass (leaves.zipIdx start)
    passBatches batch rounds (start + size) (count - size) pass

/-- The pass over the subtree of height `target` whose first leaf is `start`, with a given number
of leaves computed ahead and with a record. -/
def reduceWith (batch start target : Nat) (seen : σ) : Recorded κ (Node × σ) := do
  checkTreeHeight target
  let count := 2 ^ target
  if start + count ≤ MerkleTree.maxLeafEnd then do
    let (stack, seen) ←
      t.passBatches visit batch ((count + batch - 1) / batch) start count ([], seen)
    let root ← MerkleTree.finish target stack
    return (root, seen)
  else liftM (.error (.indexOutOfRange (start + count) MerkleTree.maxLeafEnd) :
    Except Error (Node × σ))

/-- The root of the subtree of height `target` whose first leaf is `start`, with a record. -/
def subtreeRoot (start target : Nat) : Recorded κ Node := do
  let (root, _) ← t.reduceWith (fun seen _ _ => seen) MerkleTree.leafBatch start target ()
  return root

theorem value_combine (left right : Node) (parent : Nat) :
    (t.combine left right parent).value = t.value.combine left right parent := by
  rw [combine, MerkleTree.combine]
  split
  · rw [Recorded.value_bind]
    rfl
  · rfl

theorem value_climb (index : Nat) (stack : NodeStack) (node : Node) (seen : σ) :
    (t.climb visit index stack node seen).value = t.value.climb visit index stack node seen := by
  induction stack generalizing node seen with
  | nil => rfl
  | cons top rest ih =>
    rw [climb, MerkleTree.climb]
    split
    · rw [Recorded.value_bind, Recorded.value_tell, ok_bind, Recorded.value_bind, value_combine]
      exact bind_congr fun parent => ih parent _
    · rfl

theorem value_ingest (pass : NodeStack × σ) (leaf : Bytes × Nat) :
    (t.ingest visit pass leaf).value = t.value.ingest visit pass leaf :=
  t.value_climb visit ..

theorem value_passBatches (batch rounds start count : Nat) (pass : NodeStack × σ) :
    (t.passBatches visit batch rounds start count pass).value =
      t.value.passBatches visit batch rounds start count pass := by
  induction rounds generalizing start count pass with
  | zero => rfl
  | succ rounds ih =>
    rw [passBatches, MerkleTree.passBatches]
    simp only [Recorded.value_bind, Recorded.value_forEach, Recorded.value_foldEach, value_ingest,
      ih]
    rfl

/-- Without the record the pass is the pass. -/
theorem value_reduceWith (batch start target : Nat) (seen : σ) :
    (t.reduceWith visit batch start target seen).value =
      t.value.reduceWith batch visit start target seen := by
  rw [reduceWith, MerkleTree.reduceWith, Recorded.value_bind, Recorded.value_lift]
  refine bind_congr fun _ => ?_
  dsimp only
  split
  · simp only [Recorded.value_bind, value_passBatches, Recorded.value_lift, Recorded.value_pure]
    rfl
  · rfl

/-- The recorded root is the root. -/
theorem value_subtreeRoot (start target : Nat) :
    (t.subtreeRoot start target).value = t.value.subtreeRoot start target := by
  rw [subtreeRoot, MerkleTree.subtreeRoot, Recorded.value_bind, value_reduceWith]
  rfl

end RecordedTree

end MerkleSignature
