import MerkleSignature.Tree.Basic

/-!
# Subtree builders

A subtree builder computes the root of a subtree in small steps, one leaf at a time. Several
builders share one node stack: a builder does not own nodes, it only counts how many of the topmost
nodes are its own. A finished builder holds its root until that is taken.

A step that fails leaves behind the nodes it had not yet joined, so a failure carries the builder
and the stack as they are then.
-/

namespace MerkleSignature

/-- How far a builder has come. -/
inductive SubtreeBuilder.Phase where
  /-- No first leaf was set. -/
  | idle
  /-- A first leaf was set and no leaf has been taken in. -/
  | started
  /-- Some leaves have been taken in. -/
  | active
  /-- The root was reached. -/
  | complete
  deriving DecidableEq

/-- A builder for subtrees of height `target`. -/
structure SubtreeBuilder where
  target : Nat
  /-- The next leaf to take in. -/
  next : Nat := 0
  /-- How many of the topmost nodes of the shared stack belong to this builder. -/
  ownNodes : Nat := 0
  phase : SubtreeBuilder.Phase := .idle
  /-- The finished root. -/
  root : Option Node := none
  deriving DecidableEq

namespace SubtreeBuilder

/-- A builder that is finished from the start. -/
def completed (target : Nat) (root : Option Node) : SubtreeBuilder :=
  { target, phase := .complete, root }

/-- Start on the subtree whose first leaf is `start`; an earlier root is dropped. -/
def startAt (b : SubtreeBuilder) (start : Nat) : SubtreeBuilder :=
  { b with next := start, ownNodes := 0, phase := .started, root := none }

/-- The builder without its root. -/
def withoutRoot (b : SubtreeBuilder) : SubtreeBuilder := { b with root := none }

/-- Whether the builder waits for leaves. -/
def isRunning (b : SubtreeBuilder) : Bool :=
  match b.phase with
  | .idle | .complete => false
  | .started | .active => true

/-- The lowest height at which the builder still has work: its target while it has no node on the
stack, else the lowest of its nodes. -/
def lowestHeight? (b : SubtreeBuilder) (stack : NodeStack) : Option Nat :=
  if b.isRunning then
    if b.ownNodes = 0 then some b.target else NodeStack.lowestOfTop? stack b.ownNodes
  else none

/-- Join a node with the top of the stack while that is an own node of the same height. The index
is that of the last leaf below the node. Returns the last node, how many own nodes remain, and the
stack; a failure returns what remains without the node. -/
def climb (t : MerkleTree) (index : Nat) :
    (ownNodes : Nat) → NodeStack → Node → Except (Error × Nat × NodeStack) (Node × Nat × NodeStack)
  | 0, stack, node => .ok (node, 0, stack)
  | ownNodes + 1, [], node => .ok (node, ownNodes + 1, [])
  | ownNodes + 1, top :: rest, node =>
    if top.height = node.height then
      match t.combine top node (index >>> (node.height + 1)) with
      | .error e => .error (e, ownNodes, rest)
      | .ok parent => climb t index ownNodes rest parent
    else .ok (node, ownNodes + 1, top :: rest)

/-- Take in the next leaf. -/
def update (t : MerkleTree) (b : SubtreeBuilder) (stack : NodeStack) :
    Except (Error × SubtreeBuilder × NodeStack) (SubtreeBuilder × NodeStack) :=
  if b.isRunning then
    match t.leafNode b.next with
    | .error e => .error (e, b, stack)
    | .ok leaf =>
      match climb t b.next b.ownNodes stack leaf with
      | .error (e, ownNodes, stack) => .error (e, { b with ownNodes }, stack)
      | .ok (node, ownNodes, stack) =>
        if node.height = b.target then
          .ok ({ b with ownNodes, phase := .complete, root := some node }, stack)
        else
          let next := (b.next + 1) % wordRange
          .ok ({ b with ownNodes := ownNodes + 1, next, phase := .active }, node :: stack)
  else .error (.builderNotRunning, b, stack)

end SubtreeBuilder

end MerkleSignature
