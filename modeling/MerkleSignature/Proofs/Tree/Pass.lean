import MerkleSignature.Proofs.Tree.Peaks

/-!
# The pass over a subtree

A pass takes in the leaves of an aligned subtree one after the other and keeps their peaks on its
stack. When the last leaf is in, one peak is left, the root of the subtree. The batches in which the
leaves are computed leave no trace.

The visitor is shown each node that arises together with its index. What it has seen after a number
of leaves is a list that depends on the tree alone.
-/

namespace MerkleSignature.MerkleTree

/-- What is shown to a visitor: a node and its index. -/
abbrev Visit := Node × Nat

/-- The visit of a node given by its level and its index from leaf `start` on. -/
def blockVisit (t : MerkleTree) (start level index : Nat) : Visit :=
  (t.blockNode start level index, start / 2 ^ level + index)

/-- The visits of the parents that arise when the node with index `count` joins the peaks before
it. -/
def joinVisits (t : MerkleTree) (start level count : Nat) : List Visit :=
  if count % 2 = 1 then
    t.blockVisit start (level + 1) (count / 2) :: t.joinVisits start (level + 1) (count / 2)
  else []
termination_by count

/-- The visits of a pass while it takes in one leaf. -/
def leafVisits (t : MerkleTree) (start index : Nat) : List Visit :=
  t.blockVisit start 0 index :: t.joinVisits start 0 index

/-- The visits of a pass over `count` leaves from leaf `start` on. -/
def passVisits (t : MerkleTree) (start count : Nat) : List Visit :=
  (List.range' 0 count).flatMap (t.leafVisits start)

/-- What a visitor knows after a list of visits. -/
def afterVisits {σ : Type} (visit : σ → Node → Nat → σ) (seen : σ) (visits : List Visit) : σ :=
  visits.foldl (fun seen v => visit seen v.1 v.2) seen

variable {t : MerkleTree} {start : Nat} {σ : Type} (visit : σ → Node → Nat → σ)

/-- A left node is not joined with anything. -/
theorem joinVisits_even (level count : Nat) : t.joinVisits start level (2 * count) = [] := by
  rw [joinVisits, if_neg (by omega)]

/-- A right node is joined with the node on its left. -/
theorem joinVisits_odd (level count : Nat) :
    t.joinVisits start level (2 * count + 1) =
      t.blockVisit start (level + 1) count :: t.joinVisits start (level + 1) count := by
  rw [joinVisits, if_pos (by omega), show (2 * count + 1) / 2 = count by omega]

/-- A new node turns the peaks before it into the peaks that include it. -/
theorem climb_peaks (total : t.Total) {target leaf : Nat} (haligned : 2 ^ target ∣ start)
    (htarget : target < wordRange) {level count : Nat} (hcount : count < 2 ^ (target - level))
    (hleaf : leaf / 2 ^ level = start / 2 ^ level + count) (seen : σ) :
    t.climb visit leaf (t.peaks start level count) (t.blockNode start level count) seen =
      .ok (t.peaks start level (count + 1),
        afterVisits visit seen (t.joinVisits start level count)) := by
  induction count using Nat.evenOddRec generalizing level seen with
  | h0 =>
    have hnone : t.joinVisits start level 0 = [] := joinVisits_even level 0
    have hpeaks : t.peaks start level (0 + 1) = [t.blockNode start level 0] :=
      (peaks_odd level 0).trans (by rw [peaks_zero])
    rw [peaks_zero, hpeaks, hnone]
    rfl
  | h_even count ih =>
    rw [peaks_odd, joinVisits_even, peaks_even]
    cases hpeaks : t.peaks start (level + 1) count with
    | nil => rfl
    | cons top rest =>
      -- The smallest peak stands above the level of the node, so nothing is joined.
      have hmem : top ∈ t.peaks start (level + 1) count := by
        rw [hpeaks]
        exact List.mem_cons_self
      have htop : level + 1 ≤ top.height := le_height_of_mem_peaks hmem
      rw [climb, if_neg (by rw [blockNode_height]; omega)]
      rfl
  | h_odd count ih =>
    obtain ⟨hlt, hparentCount⟩ := parent_lt hcount
    have hparent := parent_of_aligned haligned hlt hleaf
    have hvisit : leaf >>> (level + 1) = start / 2 ^ (level + 1) + count := by
      rw [Nat.shiftRight_eq_div_pow, hparent]
    rw [peaks_odd, joinVisits_odd, climb, if_pos (by rw [blockNode_height, blockNode_height]),
      blockNode_height, total.combine_blockNode haligned hlt htarget hleaf, ok_bind,
      ih hparentCount hparent, blockNode_height, hvisit,
      show 2 * count + 1 + 1 = 2 * (count + 1) by omega, peaks_even]
    rfl

/-- The leaves of one batch are taken in one after the other. -/
theorem foldlM_ingest (total : t.Total) {target : Nat} (haligned : 2 ^ target ∣ start)
    (htarget : target < wordRange) {first size : Nat} (hfit : first + size ≤ 2 ^ target)
    (seen : σ) :
    (((List.range' (start + first) size).map (t.nodeValue 0)).zipIdx (start + first)).foldlM
        (t.ingest visit) (t.peaks start 0 first, seen) =
      .ok (t.peaks start 0 (first + size),
        afterVisits visit seen ((List.range' first size).flatMap (t.leafVisits start))) := by
  induction size generalizing first seen with
  | zero => rfl
  | succ size ih =>
    have hfirst : (start + first) / 2 ^ 0 = start / 2 ^ 0 + first := by simp
    have hclimb := climb_peaks visit total haligned htarget
      (show first < 2 ^ (target - 0) by rw [Nat.sub_zero]; omega) hfirst
      (visit seen (t.nodeAt 0 (start + first)) (start + first))
    have hnode : t.blockNode start 0 first = t.nodeAt 0 (start + first) := by
      rw [blockNode, Nat.pow_zero, Nat.div_one]
    have hvisits : afterVisits visit seen (t.leafVisits start first) =
        afterVisits visit (visit seen (t.nodeAt 0 (start + first)) (start + first))
          (t.joinVisits start 0 first) := by
      rw [leafVisits, blockVisit, hnode, Nat.pow_zero, Nat.div_one]
      rfl
    rw [List.range'_succ, List.map_cons, List.zipIdx_cons, List.foldlM_cons, ingest]
    rw [hnode] at hclimb
    rw [show (⟨0, t.nodeValue 0 (start + first)⟩ : Node) = t.nodeAt 0 (start + first) from rfl,
      hclimb, ok_bind, ← hvisits, Nat.add_assoc start first 1, ih (by omega), List.range'_succ,
      List.flatMap_cons, afterVisits, afterVisits, afterVisits, List.foldl_append,
      show first + 1 + size = first + (size + 1) by omega]

/-- A round takes one batch off the leaves, and the others fit into the rounds that are left. -/
theorem exists_batch {batch rounds count : Nat} (h : count ≤ (rounds + 1) * batch) :
    ∃ size rest, min batch count = size ∧ count = size + rest ∧ rest ≤ rounds * batch := by
  rw [Nat.succ_mul] at h
  exact ⟨min batch count, count - min batch count, rfl, by omega, by omega⟩

/-- After any number of batches the stack holds the peaks of the leaves taken in so far. -/
theorem passBatches_peaks (total : t.Total) {target batch : Nat} (haligned : 2 ^ target ∣ start)
    (htarget : target < wordRange) {rounds first count : Nat} (hfit : first + count ≤ 2 ^ target)
    (hrounds : count ≤ rounds * batch) (seen : σ) :
    t.passBatches visit batch rounds (start + first) count (t.peaks start 0 first, seen) =
      .ok (t.peaks start 0 (first + count),
        afterVisits visit seen ((List.range' first count).flatMap (t.leafVisits start))) := by
  induction rounds generalizing first count seen with
  | zero =>
    obtain rfl : count = 0 := by omega
    rfl
  | succ rounds ih =>
    obtain ⟨size, rest, hsize, rfl, hrest⟩ := exists_batch hrounds
    have hsplit : List.range' first (size + rest) =
        List.range' first size ++ List.range' (first + size) rest := List.range'_append_1.symm
    rw [passBatches, hsize, Nat.add_sub_cancel_left]
    simp only [total.mapM_leaf_eq, ok_bind]
    rw [foldlM_ingest visit total haligned htarget (by omega), ok_bind, Nat.add_assoc start first,
      ih (by omega) hrest, hsplit, List.flatMap_append, afterVisits, afterVisits, afterVisits,
      List.foldl_append, Nat.add_assoc first]

/-- The rounds of a pass have room for all leaves. -/
theorem le_rounds_mul (count : Nat) {batch : Nat} (hbatch : 0 < batch) :
    count ≤ (count + batch - 1) / batch * batch := by
  have hdiv := Nat.div_add_mod (count + batch - 1) batch
  have hmod := Nat.mod_lt (count + batch - 1) hbatch
  rw [Nat.mul_comm] at hdiv
  omega

/-- The pass over an aligned subtree finds its root and shows the visitor its nodes, whatever the
size of a batch. -/
theorem reduceWith_eq_ok (total : t.Total) {target batch : Nat} (hbatch : 0 < batch)
    (htarget : target ≤ maxTreeHeight) (haligned : 2 ^ target ∣ start)
    (hrange : start + 2 ^ target ≤ maxLeafEnd) (seen : σ) :
    t.reduceWith batch visit start target seen =
      .ok (t.blockNode start target 0,
        afterVisits visit seen (t.passVisits start (2 ^ target))) := by
  have hword := lt_wordRange htarget
  have hrounds := le_rounds_mul (2 ^ target) hbatch
  have hpass := passBatches_peaks visit total haligned hword (show 0 + 2 ^ target ≤ 2 ^ target by
    omega) hrounds seen
  rw [peaks_zero, Nat.add_zero, Nat.zero_add, peaks_two_pow, Nat.zero_add] at hpass
  simp only [reduceWith, checkTreeHeight, if_pos htarget, if_pos hrange, ok_bind, pure_eq_ok, hpass]
  rw [finish, if_pos ⟨rfl, blockNode_height target 0⟩]
  rfl

/-- The root of an aligned subtree is its topmost node. -/
theorem subtreeRoot_eq_blockNode (total : t.Total) {target : Nat} (htarget : target ≤ maxTreeHeight)
    (haligned : 2 ^ target ∣ start) (hrange : start + 2 ^ target ≤ maxLeafEnd) :
    t.subtreeRoot start target = .ok (t.blockNode start target 0) := by
  rw [subtreeRoot, reduce,
    reduceWith_eq_ok _ total (by decide) htarget haligned hrange]
  rfl

/-- The pass refuses a subtree that is too high. -/
theorem reduceWith_of_height_lt (visit : σ → Node → Nat → σ) {target : Nat}
    (htarget : maxTreeHeight < target) (batch start : Nat) (seen : σ) :
    t.reduceWith batch visit start target seen =
      .error (.invalidTreeHeight target 0 maxTreeHeight) := by
  rw [reduceWith, checkTreeHeight, if_neg (Nat.not_le.2 htarget), error_bind]

/-- The pass refuses a subtree that ends behind the last leaf index. -/
theorem reduceWith_of_end_lt (visit : σ → Node → Nat → σ) {start target : Nat}
    (htarget : target ≤ maxTreeHeight) (hrange : maxLeafEnd < start + 2 ^ target) (batch : Nat)
    (seen : σ) :
    t.reduceWith batch visit start target seen =
      .error (.indexOutOfRange (start + 2 ^ target) maxLeafEnd) := by
  rw [reduceWith, checkTreeHeight, if_pos htarget, ok_bind]
  exact if_neg (Nat.not_le.2 hrange)

/-- A pass that succeeds is not over too high a subtree, and has computed the first leaf. -/
theorem exists_leaf_of_reduceWith {visit : σ → Node → Nat → σ} {target batch : Nat} {seen : σ}
    {result : Node × σ} (hbatch : 0 < batch)
    (h : t.reduceWith batch visit start target seen = .ok result) :
    target ≤ maxTreeHeight ∧ ∃ value, t.leaf start = .ok value := by
  obtain ⟨_, hcheck, h⟩ := bind_eq_ok_iff.1 h
  constructor
  · by_contra hhigh
    rw [checkTreeHeight, if_neg hhigh] at hcheck
    contradiction
  · dsimp only at h
    split at h
    · obtain ⟨pass, hpass, -⟩ := bind_eq_ok_iff.1 h
      have hcount := Nat.two_pow_pos target
      obtain ⟨rounds, hrounds⟩ := Nat.exists_eq_add_one.2
        (Nat.div_pos (show batch ≤ 2 ^ target + batch - 1 by omega) hbatch)
      obtain ⟨others, hothers⟩ := Nat.exists_eq_add_one.2 (Nat.lt_min.2 ⟨hbatch, hcount⟩)
      rw [hrounds, passBatches] at hpass
      obtain ⟨leaves, hleaves, -⟩ := bind_eq_ok_iff.1 hpass
      rw [hothers, List.range'_succ, List.mapM_cons] at hleaves
      obtain ⟨value, hvalue, -⟩ := bind_eq_ok_iff.1 hleaves
      exact ⟨value, hvalue⟩
    · contradiction

end MerkleSignature.MerkleTree
