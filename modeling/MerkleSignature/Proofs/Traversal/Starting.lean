import MerkleSignature.Proofs.Traversal.Moving
import MerkleSignature.Proofs.Tree.AuthPath

/-!
# Starting and restoring a traversal

The first pass over a tree collects two nodes on each level below the root: the node with index 1,
which is on the path of the first leaf, and the node with index 3, which the path needs next. With
these nodes in its builders a traversal is ready at the first leaf and has no work left. A traversal
is restored at a later leaf by making all moves before that leaf.
-/

namespace MerkleSignature.Traversal

open MerkleTree SubtreeBuilder

variable {t : MerkleTree}

/-- Of each node the first pass keeps what it needs for the path and what it needs ahead. -/
theorem collect_eq (height : Nat) (found : FirstNodes) (node : Node) (index : Nat) :
    FirstNodes.collect height found node index = {
      path := collectWanted (fun node index => node.height < height ∧ index = 1)
        Node.value found.path node index
      ahead := collectWanted (fun node index => node.height < height ∧ index = 3)
        id found.ahead node index } := by
  unfold FirstNodes.collect collectWanted
  by_cases hheight : node.height < height
  · by_cases hone : index = 1
    · simp [hheight, hone]
    · by_cases hthree : index = 3
      · simp [hheight, hthree]
      · simp [hone, hthree]
  · simp [hheight]

/-- What the first pass collects for the path and what it collects ahead do not depend on each
other. -/
theorem afterVisits_collect (height : Nat) (found : FirstNodes) (visits : List Visit) :
    afterVisits (FirstNodes.collect height) found visits = {
      path := afterVisits (collectWanted (fun node index => node.height < height ∧ index = 1)
        Node.value) found.path visits
      ahead := afterVisits (collectWanted (fun node index => node.height < height ∧ index = 3)
        id) found.ahead visits } := by
  induction visits generalizing found with
  | nil => rfl
  | cons v visits ih =>
    rw [afterVisits, afterVisits, afterVisits, List.foldl_cons, List.foldl_cons, List.foldl_cons,
      collect_eq]
    exact ih _

/-- The first right nodes that are built ahead have index 3. -/
theorem aheadNode_zero (level : Nat) :
    aheadStart 0 level = 3 * 2 ^ level ∧ aheadNode t 0 level = t.nodeAt level 3 := by
  have hstart : aheadStart 0 level = 3 * 2 ^ level := by rw [aheadStart, Nat.zero_div]
  refine ⟨hstart, ?_⟩
  rw [aheadNode, hstart, blockNode, Nat.mul_div_cancel _ (Nat.two_pow_pos level)]

/-- A finished builder holds what it was given; of nodes inside the tree that is the next right
node. -/
theorem builderAt_completed {level : Nat} {root : Option Node}
    (hroot : 3 * 2 ^ level < 2 ^ t.height → root = some (t.nodeAt level 3)) :
    BuilderAt t 0 level 0 (completed level root) := by
  obtain ⟨hstart, hnode⟩ := aheadNode_zero (t := t) level
  refine .waiting rfl rfl rfl ?_
  rw [hstart, hnode]
  exact hroot

/-- A traversal stands at the first leaf, without work, when its path is that of the first leaf and
its builders hold the next right nodes. -/
theorem stands_first (ahead : List (Option Node)) (hlength : ahead.length = t.height)
    (hahead : ∀ level, level < t.height → 3 * 2 ^ level < 2 ^ t.height →
      ahead[level]? = some (some (t.nodeAt level 3))) :
    Stands t 0 (fun _ => 0) {
      height := t.height
      path := t.authPath 0
      kept := List.replicate t.height none
      builders := ahead.mapIdx completed
      stack := [] } where
  height_eq := rfl
  path_eq := rfl
  length_kept := List.length_replicate
  kept_eq level _ hright _ := by simp at hright
  length_builders := List.length_mapIdx.trans hlength
  builders_eq level b hb := by
    rw [List.getElem?_mapIdx, Option.map_eq_some_iff] at hb
    obtain ⟨root, hroot, rfl⟩ := hb
    have hlevel := (List.getElem?_eq_some_iff.1 hroot).1
    refine builderAt_completed fun hinside => ?_
    rw [hahead level (hlength ▸ hlevel) hinside] at hroot
    exact (Option.some.inj hroot).symm
  stack_eq := (List.flatMap_eq_nil_iff.2 fun _ _ => if_pos rfl).symm

/-- Building the tree once yields its root and a traversal that is ready at the first leaf. -/
theorem atFirstLeaf_eq_ok (total : t.Total) (hheight : t.height ≤ maxTreeHeight) :
    ∃ s, atFirstLeaf t = .ok (s, t.nodeAt t.height 0) ∧ ReadyAt t 0 s := by
  -- The siblings along the first leaf's ancestors all have index 1.
  have hcollect : collectWanted (fun node index => node.height < t.height ∧ index = 1) Node.value =
      collectWanted (fun node index => node.height < t.height ∧
        index = (0 >>> node.height) ^^^ 1) Node.value := by
    funext found node index
    simp only [collectWanted, Nat.zero_shiftRight, Nat.zero_xor]
  have hreduce := reduce_eq_ok (FirstNodes.collect t.height) total hheight
    ⟨List.replicate t.height none, List.replicate t.height none⟩
  rw [afterVisits_collect, hcollect, afterVisits_siblings (Nat.two_pow_pos t.height)] at hreduce
  refine ⟨_, ?_, fun _ => 0, onSchedule_zero t.height 0, stands_first (afterVisits
      (collectWanted (fun node index => node.height < t.height ∧ index = 3) id)
      (List.replicate t.height none) (t.passVisits 0 (2 ^ t.height)))
    ?_ fun level hlevel hinside => ?_⟩
  · rw [atFirstLeaf, hreduce, ok_bind]
    simp only [completePath_map_some, ok_bind]
    rfl
  · rw [length_afterVisits_collectWanted, List.length_replicate]
  · refine getElem?_afterVisits_pass id (fun _ => 3) hlevel ?_
    rw [← Nat.pow_sub_mul_pow 2 (Nat.le_of_lt hlevel)] at hinside
    exact Nat.lt_of_mul_lt_mul_right hinside

/-- Restoring a traversal yields the root and a traversal that is ready at the leaf. -/
theorem restore_eq_ok (total : t.Total) (hheight : t.height ≤ maxTreeHeight) {index : Nat}
    (hindex : index < 2 ^ t.height) :
    ∃ s, restore t index = .ok (s, t.nodeAt t.height 0) ∧ ReadyAt t index s := by
  obtain ⟨first, hfirst, hready⟩ := atFirstLeaf_eq_ok total hheight
  obtain ⟨s, hmoves, hs⟩ := hready.foldlM_advance total hheight hindex
  have hmin : min index (lastLeaf first.height) = index := by
    rw [lastLeaf, hready.height_eq]
    omega
  have hreplay : first.replay t index = .ok s := by
    rw [replay, hmin]
    exact hmoves
  refine ⟨s, ?_, hs⟩
  simp only [restore, hfirst, ok_bind, hreplay]

end MerkleSignature.Traversal
