import MerkleSignature.KeyTree
import MerkleSignature.Proofs.LTree
import MerkleSignature.Proofs.Traversal.Nesting
import MerkleSignature.Proofs.Traversal.Starting
import MerkleSignature.Proofs.Tree.PassStack
import MerkleSignature.Proofs.Winternitz.OneTime
import MerkleSignature.ReducedSignature

/-!
# Trees of one-time keys are total

A key tree with seeds of `n` bytes can compute each of its nodes, and all of them have `n` bytes. So
everything that holds of total trees holds of key trees: the traversal is never late, the nodes on
its stack are nested, and the share of a tree in a signature commits to the root of the tree. With
other seeds not even a leaf can be computed.
-/

namespace MerkleSignature.KeyTree

open MerkleTree

/-- The seeds of the tree have as many bytes as its digest. -/
structure WellSeeded (k : KeyTree) : Prop where
  length_secretSeed : k.secretSeed.length = k.digest.size
  length_publicSeed : k.publicSeed.length = k.digest.size

variable {k : KeyTree}

/-- Every leaf can be computed and has `n` bytes. -/
theorem leaf_yields (hseeds : k.WellSeeded) (index : Nat) :
    Yields k.digest.size (k.leaf index) := by
  obtain ⟨publicKey, hpublicKey, hne, hdvd⟩ := Winternitz.OneTime.exists_publicKey
    (show k.oneTime.publicSeed.length = k.oneTime.digest.size from hseeds.length_publicSeed)
    hseeds.length_secretSeed k.position index
  rw [leaf, hpublicKey, ok_bind]
  exact LTree.root_yields hseeds.length_publicSeed hne hdvd k.position index

/-- A leaf can be computed only from seeds of `n` bytes. -/
theorem wellSeeded_of_leaf {index : Nat} {value : Bytes} (h : k.leaf index = .ok value) :
    k.WellSeeded := by
  obtain ⟨publicKey, hpublicKey, -⟩ := bind_eq_ok_iff.1 h
  obtain ⟨hsecret, hpublic⟩ := Winternitz.OneTime.lengths_of_publicKey hpublicKey
  exact ⟨hsecret, hpublic⟩

/-- The nodes of a key tree have `n` bytes. -/
theorem sized (hseeds : k.WellSeeded) : k.tree.Sized k.digest.size where
  leaf_yields := leaf_yields hseeds
  join_yields _ _ _ _ hleft hright :=
    Digest.joinNodes_yields hseeds.length_publicSeed hleft hright _

/-- A key tree is total. -/
theorem total (hseeds : k.WellSeeded) : k.tree.Total := (sized hseeds).total

/-- The value of a node has `n` bytes. -/
theorem length_nodeValue (hseeds : k.WellSeeded) (level index : Nat) :
    (k.tree.nodeValue level index).length = k.digest.size :=
  (sized hseeds).length_nodeValue level index

/-- A leaf can sign every block of `n` bytes, and with the authentication path of the leaf the
signature commits to the root of the tree. -/
theorem recoverRoot_signLeaf (hseeds : k.WellSeeded) {block : Bytes}
    (hblock : block.length = k.digest.size) {leaf : Nat} (hleaf : leaf < 2 ^ k.height) :
    ∃ oneTime, k.signLeaf block leaf = .ok oneTime ∧
      (ReducedSignature.mk oneTime (k.tree.authPath leaf)).recoverRoot k.oneTime block k.position
        leaf = .ok (k.tree.nodeValue k.height 0) := by
  obtain ⟨oneTime, hsign, hrecover⟩ := Winternitz.OneTime.recover_sign
    (show k.oneTime.publicSeed.length = k.oneTime.digest.size from hseeds.length_publicSeed)
    hseeds.length_secretSeed hblock k.position leaf
  refine ⟨oneTime, hsign, ?_⟩
  -- The verifier compresses the recovered public key as the tree compresses that of the leaf.
  have hvalue : (do
      let publicKey ← k.oneTime.publicKey k.secretSeed k.position leaf
      LTree.root k.oneTime.digest publicKey k.oneTime.publicSeed k.position leaf) =
        .ok (k.tree.nodeValue 0 leaf) := (total hseeds).leaf_eq leaf
  rw [ReducedSignature.recoverRoot, hrecover, ← bind_assoc, hvalue, ok_bind]
  exact rootFromPath_authPath (total hseeds) hleaf

/-- The traversal of a key tree is never late and never wrong. Building it succeeds with the root of
the tree; after all moves before any leaf, none of which fails, it holds the authentication path
that a pass over the whole tree finds for that leaf. -/
theorem traversal_path_eq_rootAndPath (k : KeyTree) (hseeds : k.WellSeeded)
    (hheight : k.height ≤ maxTreeHeight) :
    ∃ first root, Traversal.atFirstLeaf k.tree = .ok (first, root) ∧
      k.tree.subtreeRoot 0 k.height = .ok root ∧
      ∀ leaf, leaf < 2 ^ k.height → ∃ s path,
        (List.range leaf).foldlM (fun s index => s.advance k.tree index) first = .ok s ∧
          k.tree.rootAndPath leaf = .ok (root, path) ∧ s.path = path := by
  have htotal := total hseeds
  obtain ⟨first, hfirst, hready⟩ := Traversal.atFirstLeaf_eq_ok htotal hheight
  refine ⟨first, _, hfirst, subtreeRoot_eq_ok htotal hheight, fun leaf hleaf => ?_⟩
  obtain ⟨s, hmoves, hs⟩ := hready.foldlM_advance htotal hheight hleaf
  exact ⟨s, _, hmoves, rootAndPath_eq_ok htotal hheight hleaf, hs.path_eq⟩

/-- A tree with 32 leaves and zero seeds. -/
def zeroSeeded : KeyTree where
  digest := .sha256
  width := .sixteen
  secretSeed := List.replicate 32 0
  publicSeed := List.replicate 32 0
  position := {}
  height := 5

/-- Zero seeds are as long as they have to be. -/
theorem wellSeeded_zeroSeeded : zeroSeeded.WellSeeded :=
  ⟨List.length_replicate, List.length_replicate⟩

/-- The traversal of the tree with zero seeds. -/
theorem traversal_path_zeroSeeded :
    zeroSeeded.WellSeeded ∧ zeroSeeded.height ≤ maxTreeHeight ∧
      ∃ first root, Traversal.atFirstLeaf zeroSeeded.tree = .ok (first, root) ∧
        zeroSeeded.tree.subtreeRoot 0 zeroSeeded.height = .ok root ∧
        ∀ leaf, leaf < 2 ^ zeroSeeded.height → ∃ s path,
          (List.range leaf).foldlM (fun s index => s.advance zeroSeeded.tree index) first = .ok s ∧
            zeroSeeded.tree.rootAndPath leaf = .ok (root, path) ∧ s.path = path := by
  have hheight : zeroSeeded.height ≤ maxTreeHeight := by decide
  exact ⟨wellSeeded_zeroSeeded, hheight,
    traversal_path_eq_rootAndPath zeroSeeded wellSeeded_zeroSeeded hheight⟩

/-- A traversal can be built only of trees that are not too high, from seeds of `n` bytes. -/
theorem wellSeeded_of_atFirstLeaf {first : Traversal} {root : Node}
    (h : Traversal.atFirstLeaf k.tree = .ok (first, root)) :
    k.WellSeeded ∧ k.height ≤ maxTreeHeight := by
  obtain ⟨found, hreduce, -⟩ := bind_eq_ok_iff.1 h
  obtain ⟨hheight, value, hleaf⟩ := exists_leaf_of_reduceWith (by decide) hreduce
  exact ⟨wellSeeded_of_leaf hleaf, hheight⟩

/-- The stack of a traversal of a key tree is nested at all times: whenever the traversal was built
and has made all moves before a leaf, and within the move that follows, after its path was changed
and after each leaf that is spent on a builder. No builder is started while it owns nodes. -/
theorem traversal_stack_nested {first : Traversal} {root : Node}
    (hfirst : Traversal.atFirstLeaf k.tree = .ok (first, root)) {leaf : Nat}
    (hleaf : leaf < 2 ^ k.height) :
    ∃ s, (List.range leaf).foldlM (fun s index => s.advance k.tree index) first = .ok s ∧
      Traversal.Nested k.tree s ∧
      (leaf + 1 < 2 ^ k.height → ∃ moved, Traversal.MovesNested k.tree leaf s moved) := by
  obtain ⟨hseeds, hheight⟩ := wellSeeded_of_atFirstLeaf hfirst
  have htotal := total hseeds
  obtain ⟨s₀, hbuilt, hready⟩ := Traversal.atFirstLeaf_eq_ok htotal hheight
  obtain rfl : s₀ = first := congrArg Prod.fst (Except.ok.inj (hbuilt.symm.trans hfirst))
  obtain ⟨s, hmoves, hs⟩ := hready.foldlM_advance htotal hheight hleaf
  exact ⟨s, hmoves, hs.nested, hs.movesNested htotal hheight⟩

/-- The stack at leaf 13 of the tree with zero seeds, and on the way to leaf 14. -/
theorem traversal_stack_nested_zeroSeeded :
    ∃ first root s moved, Traversal.atFirstLeaf zeroSeeded.tree = .ok (first, root) ∧
      13 < 2 ^ zeroSeeded.height ∧
      (List.range 13).foldlM (fun s index => s.advance zeroSeeded.tree index) first = .ok s ∧
      Traversal.Nested zeroSeeded.tree s ∧
      Traversal.MovesNested zeroSeeded.tree 13 s moved := by
  obtain ⟨first, hfirst, -⟩ := Traversal.atFirstLeaf_eq_ok (total wellSeeded_zeroSeeded)
    (show zeroSeeded.height ≤ maxTreeHeight by decide)
  have hleaf : 13 < 2 ^ zeroSeeded.height := by decide
  obtain ⟨s, hmoves, hnested, hmove⟩ := traversal_stack_nested hfirst hleaf
  obtain ⟨moved, hmoved⟩ := hmove (by decide)
  exact ⟨first, _, s, moved, hfirst, hleaf, hmoves, hnested, hmoved⟩

end MerkleSignature.KeyTree
