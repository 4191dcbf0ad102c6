import MerkleSignature.Tree.AuthPath
import MerkleSignature.Tree.SubtreeBuilder

/-!
# Tree traversal

A traversal keeps the authentication path of the next leaf ready, so that the tree need not be
rebuilt for every signature. Moving from one leaf to the next changes the path up to the height of
the first left node above the leaf. The new node at that height is joined from nodes that are at
hand; the nodes below it are right nodes further on in the tree, each computed ahead by the builder
of its height. After every move a fixed number of leaves is spent on the builders, always on the
one with the lowest work left.

A move that fails leaves behind the changes made before the failure, so a failure carries the
traversal as it is then.
-/

namespace MerkleSignature

/-- The traversal of one tree. The lists have one entry per level, the leaf level first. -/
structure Traversal where
  height : Nat
  /-- The authentication path of the next leaf. -/
  path : List Bytes
  /-- Right nodes of the path kept for the left node above them. -/
  kept : List (Option Bytes)
  /-- The builders of the next right nodes. -/
  builders : List SubtreeBuilder
  /-- The stack that the builders share. -/
  stack : NodeStack
  deriving DecidableEq

namespace Traversal

/-- The number of leaves of the tree less one, which is the index of the last leaf. -/
def lastLeaf (height : Nat) : Nat := 2 ^ height - 1

/-- What the first pass over the tree collects per level: the node with index 1, which is on the
path of leaf 0, and the node with index 3, which is the next right node of the path. -/
structure FirstNodes where
  path : List (Option Bytes)
  ahead : List (Option Node)

/-- Keep the nodes with index 1 and 3 below the root. -/
def FirstNodes.collect (height : Nat) (found : FirstNodes) (node : Node) (index : Nat) :
    FirstNodes :=
  if node.height < height then
    if index = 1 then { found with path := found.path.set node.height (some node.value) }
    else if index = 3 then { found with ahead := found.ahead.set node.height (some node) }
    else found
  else found

/-- Build the whole tree once. Returns the traversal that stands at leaf 0, and the root. -/
def atFirstLeaf (t : MerkleTree) : Except Error (Traversal × Node) := do
  let nothing : FirstNodes := ⟨List.replicate t.height none, List.replicate t.height none⟩
  let (root, found) ← t.reduce (FirstNodes.collect t.height) 0 t.height nothing
  let path ← completePath 0 found.path
  return ({
    height := t.height
    path
    kept := List.replicate t.height none
    builders := found.ahead.mapIdx SubtreeBuilder.completed
    stack := [] }, root)

/-- The height of the first left node on the way from a leaf to the root, at most `height`. -/
def firstLeftHeight (height leaf : Nat) : Nat :=
  ((List.range height).find? fun level => leaf >>> level % 2 = 0).getD height

/-- Move the finished roots of the lowest `count` builders, from `level` on, into the path. -/
def takeRoots : (count level : Nat) → Traversal → Except (Error × Traversal) Traversal
  | 0, _, s => .ok s
  | count + 1, level, s =>
    match s.builders[level]?.bind SubtreeBuilder.root with
    | none => .error (.authPathUnavailable level, s)
    | some node =>
      takeRoots count (level + 1) { s with
        path := s.path.set level node.value
        builders := s.builders.modify level SubtreeBuilder.withoutRoot }

/-- Start the builders below `tau` on the right nodes that follow those just taken. -/
def restartBuilders (tau leaf : Nat) (s : Traversal) : Traversal :=
  { s with builders := s.builders.mapIdx fun level b =>
      let start := leaf + 1 + 3 * 2 ^ level
      if level < tau ∧ start < 2 ^ s.height then b.startAt start else b }

/-- Keep the path node at height `tau` if it is the right child of a left node. -/
def keepRight (tau leaf : Nat) (s : Traversal) : Traversal :=
  if tau + 1 < s.height ∧ leaf >>> (tau + 1) % 2 = 0 then
    { s with kept := s.kept.set tau (some (s.path.getD tau [])) }
  else s

/-- Change the path of `leaf` into that of `leaf + 1`. -/
def round (t : MerkleTree) (leaf : Nat) (s : Traversal) : Except (Error × Traversal) Traversal :=
  match firstLeftHeight s.height leaf with
  | 0 =>
    let s := s.keepRight 0 leaf
    match t.leaf leaf with
    | .error e => .error (e, s)
    | .ok value => .ok { s with path := s.path.set 0 value }
  | below + 1 =>
    match s.kept.getD below none with
    | none => .error (.authPathUnavailable below, s)
    | some right =>
      let left := s.path.getD below []
      let s := keepRight (below + 1) leaf { s with kept := s.kept.set below none }
      match t.combine ⟨below, left⟩ ⟨below, right⟩ (leaf >>> (below + 1)) with
      | .error e => .error (e, s)
      | .ok parent =>
        match takeRoots (below + 1) 0 { s with path := s.path.set (below + 1) parent.value } with
        | .error failure => .error failure
        | .ok s => .ok (s.restartBuilders (below + 1) leaf)

/-- The level of the builder with the lowest work left, the lowest level among equals. -/
def lowestBuilder? (s : Traversal) : Option Nat :=
  let better (best : Option (Nat × Nat)) (entry : SubtreeBuilder × Nat) : Option (Nat × Nat) :=
    match entry.1.lowestHeight? s.stack, best with
    | none, _ => best
    | some low, none => some (entry.2, low)
    | some low, some (_, lowest) => if low < lowest then some (entry.2, low) else best
  (s.builders.zipIdx.foldl better none).map Prod.fst

/-- Spend `budget` leaves on the builders. -/
def spend (t : MerkleTree) : (budget : Nat) → Traversal → Except (Error × Traversal) Traversal
  | 0, s => .ok s
  | budget + 1, s =>
    match s.lowestBuilder? with
    | none => .ok s
    | some level =>
      match s.builders[level]? with
      | none => .ok s
      | some b =>
        match b.update t s.stack with
        | .error (e, b, stack) => .error (e, { s with builders := s.builders.set level b, stack })
        | .ok (b, stack) => spend t budget { s with builders := s.builders.set level b, stack }

/-- Move from `leaf` to the next leaf; at the last leaf there is nothing to do. -/
def advance (t : MerkleTree) (leaf : Nat) (s : Traversal) : Except (Error × Traversal) Traversal :=
  if leaf < lastLeaf s.height then
    match s.round t leaf with
    | .error failure => .error failure
    | .ok s => s.spend t ((s.height + 1) / 2)
  else .ok s

/-- Make all moves before leaf `index`. -/
def replay (t : MerkleTree) (index : Nat) (s : Traversal) : Except (Error × Traversal) Traversal :=
  (List.range (min index (lastLeaf s.height))).foldlM (fun s leaf => s.advance t leaf) s

/-- The traversal that stands at leaf `index`, and the root. -/
def restore (t : MerkleTree) (index : Nat) : Except Error (Traversal × Node) := do
  let (s, root) ← atFirstLeaf t
  match s.replay t index with
  | .error (e, _) => .error e
  | .ok s => .ok (s, root)

end Traversal

end MerkleSignature
