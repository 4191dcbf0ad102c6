import MerkleSignature.Proofs.Digest.Calls
import MerkleSignature.Proofs.Tree.AuthPath

/-!
# Roots bind authentication paths

Two climbs from one leaf that arrive at the same root start from the same node with the same path,
or on some level they join different nodes to the same parent. In particular a climb that arrives at
the root of a tree has gone through the nodes of the tree, or collides with the join by which the
tree computes an ancestor of the leaf.
-/

namespace MerkleSignature

/-- Join an ancestor of a leaf with its sibling, in the order of their indices, with a record. -/
def recordStep (join : RecordedJoin HashCall) (leaf level : Nat) (node sibling : Bytes) :
    Recorded HashCall Bytes :=
  if leaf >>> level % 2 = 0 then join level (leaf >>> (level + 1)) node sibling
  else join level (leaf >>> (level + 1)) sibling node

/-- Recompute the root from a node and the rest of the path, with a record. -/
def recordPath (join : RecordedJoin HashCall) (leaf : Nat) :
    (level : Nat) → Bytes → List Bytes → Recorded HashCall Bytes
  | _, node, [] => pure node
  | level, node, sibling :: rest => do
    let parent ← recordStep join leaf level node sibling
    recordPath join leaf (level + 1) parent rest

variable {d : Digest} {join : RecordedJoin HashCall} {leaf level : Nat}

/-- The recorded climb is the climb. -/
theorem value_recordPath (node : Bytes) (path : List Bytes) :
    (recordPath join leaf level node path).value =
      rootFromPath (RecordedJoin.value join) leaf level node path := by
  induction path generalizing level node with
  | nil => rfl
  | cons sibling path ih =>
    rw [recordPath, rootFromPath, Recorded.value_bind, recordStep]
    dsimp only
    split
    · exact bind_congr fun parent => ih parent
    · exact bind_congr fun parent => ih parent

/-- A climb in a hash tree joins the ancestors of its leaf. -/
theorem always_recordPath {publicSeed : Bytes} {position : TreePosition} {height : Nat}
    {path : List Bytes} (hheight : level + path.length ≤ height) (node : Bytes) :
    (recordPath (d.recordHashTreeJoin publicSeed position) leaf level node path).Always
      fun call => call.place.OnBranch position leaf height := by
  induction path generalizing level node with
  | nil => exact Recorded.always_pure node
  | cons sibling path ih =>
    rw [List.length_cons] at hheight
    have hstep : (recordStep (d.recordHashTreeJoin publicSeed position) leaf level node
        sibling).Always fun call => call.place.OnBranch position leaf height := by
      unfold recordStep
      split <;> exact Digest.always_recordHash fun _ => ⟨rfl, by omega, rfl⟩
    exact hstep.bind fun parent => ih (by omega) parent

section Climbs

variable (hjoin : RecordedJoin.Binding d join) {node node' : Bytes} {calls calls' : List HashCall}
include hjoin

/-- Two steps to the same parent join the same nodes or collide. -/
theorem step_eq_or_collision {sibling sibling' parent : Bytes}
    (h : (recordStep join leaf level node sibling).run = .ok (parent, calls))
    (h' : (recordStep join leaf level node' sibling').run = .ok (parent, calls')) :
    (node = node' ∧ sibling = sibling') ∨ Collision d calls calls' := by
  unfold recordStep at h h'
  split at h <;> rename_i hside
  · rw [if_pos hside] at h'
    exact (hjoin level h h').imp_left Prod.mk.inj
  · rw [if_neg hside] at h'
    exact (hjoin level h h').imp_left fun hsame => (Prod.mk.inj hsame).symm

/-- Two climbs to the same root start from the same node with the same path, or two of their joins
collide. -/
theorem path_eq_or_collision {root : Bytes} {path path' : List Bytes}
    (hlength : path.length = path'.length)
    (h : (recordPath join leaf level node path).run = .ok (root, calls))
    (h' : (recordPath join leaf level node' path').run = .ok (root, calls')) :
    (node = node' ∧ path = path') ∨ Collision d calls calls' := by
  induction path generalizing level node node' path' calls calls' with
  | nil =>
    obtain rfl := List.eq_nil_of_length_eq_zero hlength.symm
    obtain ⟨rfl, -⟩ := Recorded.run_pure_eq_ok_iff.1 h
    obtain ⟨rfl, -⟩ := Recorded.run_pure_eq_ok_iff.1 h'
    exact .inl ⟨rfl, rfl⟩
  | cons sibling path ih =>
    obtain ⟨sibling', path', rfl⟩ := List.exists_cons_of_length_eq_add_one hlength.symm
    obtain ⟨parent, _, _, hstep, hrest, rfl⟩ := Recorded.run_bind_eq_ok_iff.1 h
    obtain ⟨parent', _, _, hstep', hrest', rfl⟩ := Recorded.run_bind_eq_ok_iff.1 h'
    rcases ih (Nat.succ.inj hlength) hrest hrest' with ⟨rfl, rfl⟩ | hcollision
    · exact (step_eq_or_collision hjoin hstep hstep').imp
        (fun ⟨hnode, hsibling⟩ => ⟨hnode, hsibling ▸ rfl⟩) Collision.append_left
    · exact .inr hcollision.append_right

end Climbs

namespace MerkleTree

/-- Compute a node above the leaves from its children, with a record of the join. The level is that
of the children. -/
def recordNode (t : MerkleTree) (join : RecordedJoin HashCall) (level index : Nat) :
    Recorded HashCall Bytes := do
  let left ← t.node level (2 * index)
  let right ← t.node level (2 * index + 1)
  join level index left right

/-- The ancestors of a leaf on the `count` levels above `level`, with a record of their joins. -/
def recordAncestors (t : MerkleTree) (join : RecordedJoin HashCall) (leaf : Nat) :
    (level count : Nat) → Recorded HashCall (List Bytes)
  | _, 0 => pure []
  | level, count + 1 => do
    let ancestor ← t.recordNode join level (leaf >>> (level + 1))
    let rest ← t.recordAncestors join leaf (level + 1) count
    return ancestor :: rest

variable {t : MerkleTree}

/-- The recorded computation of a node is its computation. -/
theorem value_recordNode (hjoin : RecordedJoin.value join = t.join) (index : Nat) :
    (t.recordNode join level index).value = t.node (level + 1) index := by
  rw [recordNode, node, ← hjoin]
  simp only [Recorded.value_bind, Recorded.value_lift]
  rfl

/-- A node of a total tree is computed by one join of its children. -/
theorem exists_recordNode (total : t.Total) (hjoin : RecordedJoin.value join = t.join)
    (level index : Nat) :
    ∃ calls, (t.recordNode join level index).run = .ok (t.nodeValue (level + 1) index, calls) ∧
      (join level index (t.nodeValue level (2 * index)) (t.nodeValue level (2 * index + 1))).run =
        .ok (t.nodeValue (level + 1) index, calls) := by
  have hnode := total.node_eq (level + 1) index
  rw [← value_recordNode hjoin] at hnode
  obtain ⟨calls, hrun⟩ := Recorded.value_eq_ok_iff.1 hnode
  refine ⟨calls, hrun, ?_⟩
  obtain ⟨left, hleft, hrun⟩ := Recorded.run_lift_bind_eq_ok_iff.1 hrun
  obtain ⟨right, hright, hrun⟩ := Recorded.run_lift_bind_eq_ok_iff.1 hrun
  rwa [nodeValue_eq_of_node hleft, nodeValue_eq_of_node hright]

/-- Climbing along siblings makes the calls by which the tree joins the ancestors. -/
theorem exists_recordAncestors (total : t.Total) (hjoin : RecordedJoin.value join = t.join)
    (leaf level count : Nat) :
    ∃ calls, (t.recordAncestors join leaf level count).run =
        .ok ((List.range' level count).map fun j => t.nodeValue (j + 1) (leaf >>> (j + 1)),
          calls) ∧
      (recordPath join leaf level (t.nodeValue level (leaf >>> level))
        ((List.range' level count).map fun j => t.nodeValue j ((leaf >>> j) ^^^ 1))).run =
          .ok (t.nodeValue (level + count) (leaf >>> (level + count)), calls) := by
  induction count generalizing level with
  | zero => exact ⟨[], rfl, rfl⟩
  | succ count ih =>
    obtain ⟨first, hnode, hjoined⟩ := exists_recordNode total hjoin level (leaf >>> (level + 1))
    obtain ⟨rest, hancestors, hclimb⟩ := ih (level + 1)
    have hstep : (recordStep join leaf level (t.nodeValue level (leaf >>> level))
        (t.nodeValue level ((leaf >>> level) ^^^ 1))).run =
          .ok (t.nodeValue (level + 1) (leaf >>> (level + 1)), first) := by
      rw [recordStep, t.siblings_in_order leaf level (join level (leaf >>> (level + 1))), hjoined]
    refine ⟨first ++ rest, ?_, ?_⟩
    · exact Recorded.run_bind_eq_ok_iff.2 ⟨_, first, rest, hnode,
        Recorded.run_bind_pure_eq_ok_iff.2 ⟨_, hancestors, rfl⟩, rfl⟩
    · rw [List.range'_succ, List.map_cons, show level + (count + 1) = level + 1 + count by omega]
      exact Recorded.run_bind_eq_ok_iff.2 ⟨_, first, rest, hstep, hclimb, rfl⟩

end MerkleTree

end MerkleSignature
