import MerkleSignature.Proofs.KeyTree

/-!
# Subtrees of key trees

A key tree never holds its nodes. It computes the root of a subtree in one pass, in small steps on a
stack that others use as well, or from a leaf and its authentication path. All three ways arrive at
the node that the recursion over the levels of the tree defines: a leaf, or the combination of the
two nodes below.
-/

namespace MerkleSignature.KeyTree

open MerkleTree

variable {k : KeyTree}

/-- A pass over an aligned subtree computes the node that the recursion defines, and shows its
visitor every node of the subtree once. A pass from any leaf on succeeds, with a node of the height
asked for, and its stack stays small. Subtrees that are too high or end behind the last leaf index
are refused. The number of leaves that are computed ahead does not matter. -/
theorem reduceWith_computes_tree (hseeds : k.WellSeeded) (start target : Nat) {batch : Nat}
    (hbatch : 0 < batch) {σ : Type} (visit : σ → Node → Nat → σ) (seen : σ) :
    (target ≤ maxTreeHeight → start + 2 ^ target ≤ maxLeafEnd → 2 ^ target ∣ start →
      CoverSubtree k.tree start target (k.tree.passVisits start (2 ^ target)) ∧
      ∃ root, k.tree.combinedNode target (start / 2 ^ target) = .ok root ∧
        k.tree.subtreeRoot start target = .ok root ∧
        k.tree.reduceWith batch visit start target seen =
          .ok (root, afterVisits visit seen (k.tree.passVisits start (2 ^ target)))) ∧
    (target ≤ maxTreeHeight → start + 2 ^ target ≤ maxLeafEnd →
      ∃ root after history,
        (k.tree.traced.reduceWith visit batch start target seen).run =
          .ok ((root, after), history) ∧
        k.tree.reduceWith batch visit start target seen = .ok (root, after) ∧
        root.height = target ∧ ∀ stack ∈ history, stack.length ≤ target + 1) ∧
    (maxTreeHeight < target →
      k.tree.reduceWith batch visit start target seen =
        .error (.invalidTreeHeight target 0 maxTreeHeight) ∧
      k.tree.subtreeRoot start target = .error (.invalidTreeHeight target 0 maxTreeHeight)) ∧
    (target ≤ maxTreeHeight → maxLeafEnd < start + 2 ^ target →
      k.tree.reduceWith batch visit start target seen =
        .error (.indexOutOfRange (start + 2 ^ target) maxLeafEnd) ∧
      k.tree.subtreeRoot start target =
        .error (.indexOutOfRange (start + 2 ^ target) maxLeafEnd)) := by
  have htotal := total hseeds
  refine ⟨fun htarget hrange haligned => ?_, fun htarget hrange => ?_, fun htarget => ?_,
    fun htarget hrange => ?_⟩
  · have hword : target < wordRange := lt_wordRange htarget
    refine ⟨htotal.passVisits_cover haligned hword, k.tree.blockNode start target 0, ?_,
      subtreeRoot_eq_blockNode htotal htarget haligned hrange,
      reduceWith_eq_ok visit htotal hbatch htarget haligned hrange seen⟩
    rw [htotal.combinedNode_eq hword, blockNode, Nat.add_zero]
  · obtain ⟨⟨root, after⟩, history, hrun, hroot, hhistory⟩ :=
      traced_reduceWith_succeeds visit (sized hseeds) hbatch htarget hrange seen
    refine ⟨root, after, history, hrun, ?_, hroot, hhistory⟩
    have hvalue := Recorded.value_eq_ok_iff.2 ⟨history, hrun⟩
    rwa [RecordedTree.value_reduceWith, value_traced] at hvalue
  · refine ⟨reduceWith_of_height_lt visit htarget batch start seen, ?_⟩
    rw [subtreeRoot, reduce, reduceWith_of_height_lt _ htarget, error_bind]
  · refine ⟨reduceWith_of_end_lt visit htarget hrange batch seen, ?_⟩
    rw [subtreeRoot, reduce, reduceWith_of_end_lt _ htarget hrange, error_bind]

/-- The pass over the four leaves from leaf 4 on, three leaves at a time, with a visitor that counts
nodes, and the pass from leaf 5 on. -/
theorem reduceWith_computes_tree_zeroSeeded :
    zeroSeeded.WellSeeded ∧ 0 < 3 ∧
      CoverSubtree zeroSeeded.tree 4 2 (zeroSeeded.tree.passVisits 4 (2 ^ 2)) ∧
      (∃ root, zeroSeeded.tree.combinedNode 2 (4 / 2 ^ 2) = .ok root ∧
        zeroSeeded.tree.subtreeRoot 4 2 = .ok root ∧
        zeroSeeded.tree.reduceWith 3 (fun count _ _ => count + 1) 4 2 0 =
          .ok (root, afterVisits (fun count _ _ => count + 1) 0
            (zeroSeeded.tree.passVisits 4 (2 ^ 2)))) ∧
      ∃ root after history,
        (zeroSeeded.tree.traced.reduceWith (fun count _ _ => count + 1) 3 5 2 0).run =
          .ok ((root, after), history) ∧
        zeroSeeded.tree.reduceWith 3 (fun count _ _ => count + 1) 5 2 0 = .ok (root, after) ∧
        root.height = 2 ∧ ∀ stack ∈ history, stack.length ≤ 2 + 1 := by
  have haligned := (reduceWith_computes_tree wellSeeded_zeroSeeded 4 2 (show 0 < 3 by decide)
    (fun count _ _ => count + 1) 0).1 (by decide) (by decide) (by decide)
  have hany := (reduceWith_computes_tree wellSeeded_zeroSeeded 5 2 (show 0 < 3 by decide)
    (fun count _ _ => count + 1) 0).2.1 (by decide) (by decide)
  exact ⟨wellSeeded_zeroSeeded, by decide, haligned.1, haligned.2, hany⟩

/-- A builder computes what the pass over its subtree computes, and leaves alone what it finds on
the stack. Whatever it did before, once it is started on an aligned subtree its nodes stand on top
of the nodes that are there; with the last leaf it holds the root, and the stack is as it was. After
that it refuses to take in a leaf, and nothing changes. -/
theorem updates_compute_subtree (hseeds : k.WellSeeded) (b : SubtreeBuilder) {start : Nat}
    (htarget : b.target ≤ maxTreeHeight) (haligned : 2 ^ b.target ∣ start)
    (hrange : start + 2 ^ b.target ≤ maxLeafEnd) (below : NodeStack) :
    (∀ count, 0 < count → count < 2 ^ b.target → ∃ after,
      SubtreeBuilder.updates k.tree count (b.startAt start) below =
        .ok (after, k.tree.peaks start 0 count ++ below) ∧
      after.phase = .active ∧ after.ownNodes = (k.tree.peaks start 0 count).length) ∧
    ∃ done root,
      SubtreeBuilder.updates k.tree (2 ^ b.target) (b.startAt start) below = .ok (done, below) ∧
      done.phase = .complete ∧ done.root = some root ∧
      k.tree.subtreeRoot start b.target = .ok root ∧
      ∀ stack, done.update k.tree stack = .error (.builderNotRunning, done, stack) := by
  have htotal := total hseeds
  have hword : b.target < wordRange := lt_wordRange htarget
  have hend : start + 2 ^ b.target ≤ wordRange := hrange.trans (by decide)
  refine ⟨fun count hpos hcount => ?_, SubtreeBuilder.finished k.tree b.target start, _,
    SubtreeBuilder.updates_startAt_last htotal b haligned hword hend below, rfl, rfl,
    subtreeRoot_eq_blockNode htotal htarget haligned hrange,
    SubtreeBuilder.update_of_not_running rfl⟩
  exact ⟨SubtreeBuilder.working k.tree b.target start count,
    SubtreeBuilder.updates_startAt htotal b haligned hword hend below hcount,
    if_neg (Nat.ne_of_gt hpos), rfl⟩

/-- A builder for the four leaves from leaf 8 on, above foreign nodes of the heights that it builds
itself. -/
theorem updates_compute_subtree_zeroSeeded :
    zeroSeeded.WellSeeded ∧ 2 ≤ maxTreeHeight ∧ 2 ^ 2 ∣ 8 ∧ 8 + 2 ^ 2 ≤ maxLeafEnd ∧
      (∀ count, 0 < count → count < 2 ^ 2 → ∃ after,
        SubtreeBuilder.updates zeroSeeded.tree count (SubtreeBuilder.startAt { target := 2 } 8)
            [⟨0, [1]⟩, ⟨1, [2]⟩] =
          .ok (after, zeroSeeded.tree.peaks 8 0 count ++ [⟨0, [1]⟩, ⟨1, [2]⟩]) ∧
        after.phase = .active ∧ after.ownNodes = (zeroSeeded.tree.peaks 8 0 count).length) ∧
      ∃ done root,
        SubtreeBuilder.updates zeroSeeded.tree (2 ^ 2) (SubtreeBuilder.startAt { target := 2 } 8)
          [⟨0, [1]⟩, ⟨1, [2]⟩] = .ok (done, [⟨0, [1]⟩, ⟨1, [2]⟩]) ∧
        done.phase = .complete ∧ done.root = some root ∧
        zeroSeeded.tree.subtreeRoot 8 2 = .ok root ∧
        ∀ stack, done.update zeroSeeded.tree stack = .error (.builderNotRunning, done, stack) := by
  exact ⟨wellSeeded_zeroSeeded, by decide, by decide, by decide,
    updates_compute_subtree wellSeeded_zeroSeeded { target := 2 } (by decide) (by decide)
      (by decide) [⟨0, [1]⟩, ⟨1, [2]⟩]⟩

/-- The pass that collects a path and the climb along it agree. For a leaf of the tree the path has
one node per level, the sibling of the leaf's ancestor there, and the climb from the leaf arrives at
the root that the pass found. For a leaf behind the tree there is no path. -/
theorem rootFromPath_rootAndPath (hseeds : k.WellSeeded) (hheight : k.height ≤ maxTreeHeight)
    (leaf : Nat) :
    (leaf < 2 ^ k.height → ∃ value root path,
      k.leaf leaf = .ok value ∧ k.tree.combinedNode k.height 0 = .ok root ∧
      k.tree.subtreeRoot 0 k.height = .ok root ∧ k.tree.rootAndPath leaf = .ok (root, path) ∧
      path.length = k.height ∧
      (∀ level sibling, path[level]? = some sibling →
        k.tree.combinedNode level ((leaf >>> level) ^^^ 1) = .ok ⟨level, sibling⟩) ∧
      rootFromPath (k.digest.hashTreeJoin k.publicSeed k.position) leaf 0 value path =
        .ok root.value) ∧
    (0 < k.height → 2 ^ k.height ≤ leaf →
      k.tree.rootAndPath leaf = .error (.authPathUnavailable 0)) := by
  have htotal := total hseeds
  have hword : k.height < wordRange := lt_wordRange hheight
  refine ⟨fun hleaf => ?_, rootAndPath_of_le htotal hheight⟩
  refine ⟨_, _, k.tree.authPath leaf, htotal.leaf_eq leaf, htotal.combinedNode_eq hword 0,
    subtreeRoot_eq_ok htotal hheight, rootAndPath_eq_ok htotal hheight hleaf, length_authPath leaf,
    fun level sibling hsibling => ?_, rootFromPath_authPath htotal hleaf⟩
  have hlevel : level < k.height := by
    have hlength := (List.getElem?_eq_some_iff.1 hsibling).1
    rwa [length_authPath] at hlength
  rw [getElem?_authPath hlevel] at hsibling
  rw [htotal.combinedNode_eq (hlevel.trans hword), nodeAt, Option.some.inj hsibling]

/-- The path of leaf 19 of the tree with 32 leaves, and the refusal of leaf 32. -/
theorem rootFromPath_rootAndPath_zeroSeeded :
    zeroSeeded.WellSeeded ∧ zeroSeeded.height ≤ maxTreeHeight ∧
      (∃ value root path,
        zeroSeeded.leaf 19 = .ok value ∧
        zeroSeeded.tree.combinedNode zeroSeeded.height 0 = .ok root ∧
        zeroSeeded.tree.subtreeRoot 0 zeroSeeded.height = .ok root ∧
        zeroSeeded.tree.rootAndPath 19 = .ok (root, path) ∧ path.length = zeroSeeded.height ∧
        (∀ level sibling, path[level]? = some sibling →
          zeroSeeded.tree.combinedNode level ((19 >>> level) ^^^ 1) = .ok ⟨level, sibling⟩) ∧
        rootFromPath (zeroSeeded.digest.hashTreeJoin zeroSeeded.publicSeed zeroSeeded.position) 19
          0 value path = .ok root.value) ∧
      zeroSeeded.tree.rootAndPath 32 = .error (.authPathUnavailable 0) := by
  have hheight : zeroSeeded.height ≤ maxTreeHeight := by decide
  have hinside := (rootFromPath_rootAndPath wellSeeded_zeroSeeded hheight 19).1 (by decide)
  have hbehind := (rootFromPath_rootAndPath wellSeeded_zeroSeeded hheight 32).2 (by decide)
    (by decide)
  exact ⟨wellSeeded_zeroSeeded, hheight, hinside, hbehind⟩

end MerkleSignature.KeyTree
