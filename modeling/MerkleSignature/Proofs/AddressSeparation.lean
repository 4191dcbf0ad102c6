import MerkleSignature.Hypertree.PrivateKey
import MerkleSignature.Proofs.Address
import MerkleSignature.Proofs.AddressSeparation.Tree

/-!
# No address is used twice

While the trees of a hypertree are built, each key and each mask is derived under an address of its
own. Within a tree the kinds and the words of the addresses keep the calls apart, and the position
in an address keeps the trees apart. How many addresses are used is known beforehand, so none of the
derivations goes unnoticed.
-/

namespace MerkleSignature

open Recorded

namespace KeyTree

/-- A tree elsewhere has the same seeds. -/
theorem WellSeeded.elsewhere {k : KeyTree} (hseeds : k.WellSeeded) (position : TreePosition) :
    ({ k with position : KeyTree }).WellSeeded :=
  ⟨hseeds.length_secretSeed, hseeds.length_publicSeed⟩

/-- The roots of trees at different positions are computed without using an address twice. -/
theorem once_noteRoots {k : KeyTree} (hseeds : k.WellSeeded) {height : Nat}
    (hheight : height ≤ maxTreeHeight) {positions : List TreePosition}
    (hpositions : positions.Nodup) :
    Once (fun a => a.position ∈ positions) (positions.length * k.derivations height)
      (k.noteRoots height positions) := by
  have htrees : ∀ position ∈ positions, Once (fun a => a.position = position)
      (k.derivations height) ({ k with position : KeyTree }.notedTree.subtreeRoot 0 height) :=
    fun position _ => once_subtreeRoot (hseeds.elsewhere position) hheight
  have hapart : positions.Pairwise fun position position' =>
      ∀ a : Address, a.position = position → a.position ≠ position' := by
    apply hpositions.imp
    intro position position' hne a ha ha'
    exact hne (ha.symm.trans ha')
  apply (once_forEach htrees hapart).mono
  rintro a ⟨position, hposition, rfl⟩
  exact hposition

end KeyTree

namespace Hypertree.Params

/-- The positions of all trees of a hypertree, layer by layer. On a layer there is one tree for each
leaf of the layer above. -/
def treePositions (p : Params) : List TreePosition :=
  (List.range p.layers).flatMap fun layer =>
    (List.range (2 ^ (p.treeHeight * (p.layers - 1 - layer)))).map (positionOf layer)

/-- The trees of a hypertree have different positions: words count the layers and the trees of a
layer. -/
theorem nodup_treePositions (p : Params) : p.treePositions.Nodup := by
  have hheight : 0 < p.treeHeight := p.minKeyHeight_le.trans_lt' (by decide)
  have htotal : p.treeHeight * p.layers ≤ 60 := p.totalHeight_le
  have hlayers : p.layers ≤ 60 := (Nat.le_mul_of_pos_left _ hheight).trans htotal
  rw [treePositions, List.nodup_iff_pairwise_ne, List.pairwise_flatMap]
  constructor
  · intro layer _
    have habove : p.treeHeight * (p.layers - 1 - layer) ≤ p.treeHeight * p.layers :=
      Nat.mul_le_mul_left _ (by omega)
    have htrees : 2 ^ (p.treeHeight * (p.layers - 1 - layer)) ≤ 2 ^ 64 :=
      Nat.pow_le_pow_right (by decide) (habove.trans (htotal.trans (by decide)))
    rw [List.pairwise_map]
    refine List.nodup_range.imp_of_mem fun htree htree' hne hsame => hne ?_
    rw [List.mem_range] at htree htree'
    have hwords := congrArg (fun position => position.tree.toNat) hsame
    simp only [positionOf, UInt64.toNat_ofNat'] at hwords
    rwa [Nat.mod_eq_of_lt (htree.trans_le htrees), Nat.mod_eq_of_lt (htree'.trans_le htrees)]
      at hwords
  · refine List.nodup_range.imp_of_mem fun hlayer hlayer' hne position hposition position'
      hposition' hsame => hne ?_
    rw [List.mem_range] at hlayer hlayer'
    obtain ⟨tree, -, rfl⟩ := List.mem_map.1 hposition
    obtain ⟨tree', -, rfl⟩ := List.mem_map.1 hposition'
    have hwords := congrArg (fun position => position.layer.toNat) hsame
    simp only [positionOf, UInt32.toNat_ofNat'] at hwords
    omega

end Hypertree.Params

namespace KeyTree

/-- The roots of trees at some positions are computed. On the way, keys and masks are derived under
as many addresses as there are steps and joins in these trees, and no two of the encoded addresses
are the same. -/
def DerivesApart (k : KeyTree) (height : Nat) (positions : List TreePosition) : Prop :=
  ∃ roots addresses, (k.noteRoots height positions).run = .ok (roots, addresses) ∧
    (positions.mapM fun position => { k with position : KeyTree }.tree.subtreeRoot 0 height) =
      .ok roots ∧
    addresses.length = positions.length * k.derivations height ∧
    (addresses.map Address.encode).Nodup

/-- Trees at different positions derive their keys and masks under different addresses. -/
theorem derivesApart {k : KeyTree} (hseeds : k.WellSeeded) {height : Nat}
    (hheight : height ≤ maxTreeHeight) {positions : List TreePosition}
    (hpositions : positions.Nodup) : k.DerivesApart height positions := by
  have hroots : (positions.mapM fun position =>
      { k with position : KeyTree }.tree.subtreeRoot 0 height) =
        .ok (positions.map fun position => { k with position : KeyTree }.tree.nodeAt height 0) :=
    mapM_eq_ok_map fun position _ =>
      MerkleTree.subtreeRoot_zero_eq_ok (total (hseeds.elsewhere position)) hheight
  obtain ⟨addresses, hrun⟩ := value_eq_ok_iff.1 ((k.value_noteRoots height positions).trans hroots)
  obtain ⟨hnodup, hlength, -⟩ := once_noteRoots hseeds hheight hpositions hrun
  exact ⟨_, addresses, hrun, hroots, hlength, hnodup.map Address.encode_injective⟩

/-- No address is used twice. Whatever seeds of `n` bytes trees have, and whatever their height up
to the largest one, all of them can be built, and among the encoded addresses under which keys and
masks are derived from the public seed on the way (for the steps on the chains of each leaf, for the
joins in each L-tree and for the joins in each hash tree) no one occurs twice. This holds for a tree
at any position, for any trees at different positions, and for all trees of all layers of any
hypertree. -/
theorem derivation_addresses_nodup (k : KeyTree) (hseeds : k.WellSeeded) {height : Nat}
    (hheight : height ≤ maxTreeHeight) :
    (∀ positions : List TreePosition, positions.Nodup → k.DerivesApart height positions) ∧
      ∀ p : Hypertree.Params, k.DerivesApart height p.treePositions := by
  constructor
  · intro positions hpositions
    exact derivesApart hseeds hheight hpositions
  · intro p
    exact derivesApart hseeds hheight p.nodup_treePositions

/-- The trees with zero seeds in any hypertree, and two of them beside each other. -/
theorem derivation_addresses_nodup_zeroSeeded :
    zeroSeeded.WellSeeded ∧ zeroSeeded.height ≤ maxTreeHeight ∧
      [Hypertree.positionOf 0 0, Hypertree.positionOf 0 1].Nodup ∧
      zeroSeeded.DerivesApart zeroSeeded.height
        [Hypertree.positionOf 0 0, Hypertree.positionOf 0 1] ∧
      ∀ p : Hypertree.Params, zeroSeeded.DerivesApart zeroSeeded.height p.treePositions := by
  have hheight : zeroSeeded.height ≤ maxTreeHeight := by decide
  have hpositions : [Hypertree.positionOf 0 0, Hypertree.positionOf 0 1].Nodup := by decide
  obtain ⟨hany, hall⟩ := derivation_addresses_nodup zeroSeeded wellSeeded_zeroSeeded hheight
  exact ⟨wellSeeded_zeroSeeded, hheight, hpositions, hany _ hpositions, hall⟩

end KeyTree

end MerkleSignature
