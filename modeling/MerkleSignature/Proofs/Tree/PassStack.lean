import Mathlib.Data.Nat.BitIndices
import MerkleSignature.Proofs.Digest.Keyed
import MerkleSignature.Proofs.Tree.Pass
import MerkleSignature.Proofs.Tree.RecordedPass

/-!
# The stack of a pass

The stack of a pass is a binary counter. After some leaves the heights on the stack are the
positions of the ones in the number of these leaves, the lowest on top, and taking in a leaf carries
like adding one. This does not depend on where the pass starts: also when the first leaf is not that
of a subtree, one node is left in the end, at the height asked for, and the stack stays small on the
way.

To speak of the stack on the way, the tree is passed over with a record of the stack, noted whenever
a node is taken off it or put onto it.
-/

namespace MerkleSignature.MerkleTree

/-- A number below a power of two has at most so many ones. -/
theorem length_bitIndices_le {count target : Nat} (h : count < 2 ^ target) :
    count.bitIndices.length ≤ target := by
  refine length_le_of_pairwise_lt Nat.bitIndices_sorted.pairwise fun i hi => ?_
  have hpow : 2 ^ i ≤ count := Nat.two_pow_le_of_mem_bitIndices hi
  exact (Nat.pow_lt_pow_iff_right (by decide)).1 (hpow.trans_lt h)

/-- The tree with a record of the stacks of a pass, and of nothing else. -/
def traced (t : MerkleTree) : RecordedTree NodeStack where
  height := t.height
  leaf index := liftM (t.leaf index)
  join height index left right := liftM (t.join height index left right)
  onStack stack := [stack]

/-- Without the record the tree is the tree. -/
@[simp] theorem value_traced (t : MerkleTree) : t.traced.value = t := by
  unfold RecordedTree.value RecordedJoin.value traced
  simp only [Recorded.value_lift]

/-- Joining nodes does not look at the stack. -/
theorem combine_traced (t : MerkleTree) (left right : Node) (parent : Nat) :
    t.traced.combine left right parent = liftM (t.combine left right parent) := by
  rw [RecordedTree.combine, combine]
  split
  · rw [Recorded.lift_bind]
    rfl
  · rfl

/-- Computing leaves does not look at the stack. -/
theorem forEach_leaf_traced (t : MerkleTree) (indices : List Nat) :
    Recorded.forEach t.traced.leaf indices = liftM (indices.mapM t.leaf) :=
  Recorded.forEach_lift t.leaf indices

/-- The leaves of a tree have a given number of bytes, and two nodes of so many bytes are joined to
a third. -/
structure Sized (t : MerkleTree) (size : Nat) : Prop where
  leaf_yields : ∀ index, Yields size (t.leaf index)
  join_yields : ∀ level index left right, left.length = size → right.length = size →
    Yields size (t.join level index left right)

variable {t : MerkleTree} {size : Nat}

/-- Every node of such a tree can be computed and has the given number of bytes. -/
theorem Sized.node_yields (hsized : t.Sized size) (level index : Nat) :
    Yields size (t.node level index) := by
  induction level generalizing index with
  | zero => exact hsized.leaf_yields index
  | succ level ih =>
    refine (ih (2 * index)).bind fun left hleft => ?_
    refine (ih (2 * index + 1)).bind fun right hright => ?_
    exact hsized.join_yields level index left right hleft hright

/-- Such a tree is total. -/
theorem Sized.total (hsized : t.Sized size) : t.Total := by
  intro level index
  obtain ⟨value, hvalue, -⟩ := hsized.node_yields level index
  exact ⟨value, hvalue⟩

/-- The nodes of such a tree have the given number of bytes. -/
theorem Sized.length_nodeValue (hsized : t.Sized size) (level index : Nat) :
    (t.nodeValue level index).length = size := by
  obtain ⟨value, hvalue, hlength⟩ := hsized.node_yields level index
  rw [nodeValue_eq_of_node hvalue, hlength]

/-- Two nodes of one height are combined to a node above them. -/
theorem Sized.exists_combine (hsized : t.Sized size) {left right : Node}
    (hheight : left.height = right.height) (hword : right.height + 1 < wordRange)
    (hleft : left.value.length = size) (hright : right.value.length = size) (parent : Nat) :
    ∃ node, t.combine left right parent = .ok node ∧ node.height = right.height + 1 ∧
      node.value.length = size := by
  obtain ⟨value, hvalue, hlength⟩ :=
    hsized.join_yields left.height parent left.value right.value hleft hright
  refine ⟨⟨(left.height + 1) % wordRange, value⟩, ?_, ?_, hlength⟩
  · rw [combine, if_pos hheight, hvalue]
    rfl
  · rw [hheight]
    exact Nat.mod_eq_of_lt hword

/-- The stack of a pass that has come to the node number `count` of a level: the heights from this
level up are the ones of the number. -/
structure Counts (size level count : Nat) (stack : NodeStack) : Prop where
  heights_eq : stack.map Node.height = count.bitIndices.map (level + ·)
  length_value : ∀ node ∈ stack, node.value.length = size

/-- An empty stack has counted nothing. -/
theorem counts_nil (size level : Nat) : Counts size level 0 [] :=
  ⟨by simp, fun _ hnode => (nomatch hnode)⟩

/-- There are as many nodes on the stack as ones in the number. -/
theorem Counts.length_eq {level count : Nat} {stack : NodeStack}
    (h : Counts size level count stack) : stack.length = count.bitIndices.length := by
  have hlength := congrArg List.length h.heights_eq
  rwa [List.length_map, List.length_map] at hlength

/-- Below a level nothing is left of an even number. -/
theorem counts_even_iff {level count : Nat} {stack : NodeStack} :
    Counts size level (2 * count) stack ↔ Counts size (level + 1) count stack := by
  have hshift : (2 * count).bitIndices.map (level + ·) =
      count.bitIndices.map (level + 1 + ·) := by
    rw [Nat.bitIndices_two_mul, List.map_map]
    refine List.map_congr_left fun i _ => ?_
    rw [Function.comp_apply]
    omega
  exact ⟨fun h => ⟨h.heights_eq.trans hshift, h.length_value⟩,
    fun h => ⟨h.heights_eq.trans hshift.symm, h.length_value⟩⟩

/-- A node on the level makes an even number odd. -/
theorem counts_odd_iff {level count : Nat} {stack : NodeStack} :
    Counts size level (2 * count + 1) stack ↔ ∃ top rest, stack = top :: rest ∧
      top.height = level ∧ top.value.length = size ∧ Counts size (level + 1) count rest := by
  have hodd : (2 * count + 1).bitIndices.map (level + ·) =
      level :: (2 * count).bitIndices.map (level + ·) := by
    rw [Nat.bitIndices_two_mul_add_one, Nat.bitIndices_two_mul]
    rfl
  constructor
  · intro h
    have hheights := h.heights_eq
    rw [hodd, List.map_eq_cons_iff] at hheights
    obtain ⟨top, rest, rfl, htop, hrest⟩ := hheights
    obtain ⟨hvalue, hvalues⟩ := List.forall_mem_cons.1 h.length_value
    exact ⟨top, rest, rfl, htop, hvalue, counts_even_iff.1 ⟨hrest, hvalues⟩⟩
  · rintro ⟨top, rest, rfl, htop, hvalue, hrest⟩
    have hbelow := counts_even_iff.2 hrest
    refine ⟨?_, List.forall_mem_cons.2 ⟨hvalue, hbelow.length_value⟩⟩
    rw [hodd, List.map_cons, htop, hbelow.heights_eq]

/-- All that was counted stands on or above the level. -/
theorem Counts.le_height {level count : Nat} {stack : NodeStack}
    (h : Counts size level count stack) {node : Node} (hnode : node ∈ stack) :
    level ≤ node.height := by
  have hmem := List.mem_map_of_mem (f := Node.height) hnode
  rw [h.heights_eq] at hmem
  obtain ⟨i, -, hi⟩ := List.mem_map.1 hmem
  omega

/-- When `2 ^ target` leaves were counted, one node is left, at the height `target`. -/
theorem Counts.finish_eq_ok {target : Nat} {stack : NodeStack}
    (h : Counts size 0 (2 ^ target) stack) :
    ∃ root, finish target stack = .ok root ∧ root.height = target := by
  have hheights := h.heights_eq
  rw [Nat.bitIndices_two_pow, List.map_singleton, List.map_eq_singleton_iff] at hheights
  obtain ⟨root, rfl, hroot⟩ := hheights
  rw [Nat.zero_add] at hroot
  exact ⟨root, if_pos ⟨rfl, hroot⟩, hroot⟩

section Pass

variable {σ : Type} (visit : σ → Node → Nat → σ) (hsized : t.Sized size) {bound : Nat}

/-- A node that is lower than the stack is put onto it. -/
theorem climb_push {stack : NodeStack} {node : Node}
    (hlow : ∀ top ∈ stack, node.height < top.height) (hbound : stack.length ≤ bound)
    (index : Nat) (seen : σ) :
    (t.traced.climb visit index stack node seen).Succeeds (fun stack => stack.length ≤ bound + 1)
      (fun after => after.1 = node :: stack) := by
  cases stack with
  | nil =>
    exact Recorded.succeeds_tell_bind (Nat.succ_le_succ hbound) (Recorded.succeeds_pure rfl)
  | cons top rest =>
    rw [RecordedTree.climb, if_neg (Nat.ne_of_gt (hlow top List.mem_cons_self))]
    exact Recorded.succeeds_tell_bind (Nat.succ_le_succ hbound) (Recorded.succeeds_pure rfl)

/-- A left node is put onto the stack. -/
theorem climb_left {level count : Nat} {stack : NodeStack}
    (hstack : Counts size level (2 * count) stack) (hbound : stack.length ≤ bound) {node : Node}
    (hheight : node.height = level) (hvalue : node.value.length = size) (index : Nat) (seen : σ) :
    (t.traced.climb visit index stack node seen).Succeeds (fun stack => stack.length ≤ bound + 1)
      (fun after => Counts size level (2 * count + 1) after.1) := by
  have habove := counts_even_iff.1 hstack
  have hlow : ∀ top ∈ stack, node.height < top.height := fun top htop =>
    Nat.lt_of_lt_of_le (hheight ▸ Nat.lt_succ_self level) (habove.le_height htop)
  refine (climb_push visit hlow hbound index seen).mono fun after hafter => ?_
  exact counts_odd_iff.2 ⟨node, stack, hafter, hheight, hvalue, habove⟩

include hsized

/-- Taking in a node counts up by one, and on the way the stack grows by at most one node. -/
theorem climb_counts {target : Nat} (htarget : target < wordRange) {level count : Nat}
    (hcount : count < 2 ^ (target - level)) {stack : NodeStack}
    (hstack : Counts size level count stack) (hbound : stack.length ≤ bound) {node : Node}
    (hheight : node.height = level) (hvalue : node.value.length = size) (index : Nat) (seen : σ) :
    (t.traced.climb visit index stack node seen).Succeeds (fun stack => stack.length ≤ bound + 1)
      (fun after => Counts size level (count + 1) after.1) := by
  induction count using Nat.evenOddRec generalizing level stack node seen with
  | h0 =>
    have hnone : Counts size level (2 * 0) stack := hstack
    exact climb_left visit hnone hbound hheight hvalue index seen
  | h_even count ih => exact climb_left visit hstack hbound hheight hvalue index seen
  | h_odd count ih =>
    obtain ⟨top, rest, rfl, htop, htopValue, hrest⟩ := counts_odd_iff.1 hstack
    obtain ⟨hlt, hparentCount⟩ := parent_lt hcount
    rw [List.length_cons] at hbound
    obtain ⟨parent, hparent, hparentHeight, hparentValue⟩ :=
      hsized.exists_combine (htop.trans hheight.symm) (by omega) htopValue hvalue
        (index >>> (node.height + 1))
    rw [RecordedTree.climb, if_pos (htop.trans hheight.symm), combine_traced]
    refine Recorded.succeeds_tell_bind (by omega) (Recorded.succeeds_lift_bind hparent ?_)
    refine (ih hparentCount hrest (by omega) (hheight ▸ hparentHeight) hparentValue _).mono
      fun after hafter => ?_
    exact counts_even_iff.2 hafter

/-- Taking in leaves counts them, and on the way the stack holds at most one node more than a
number of leaves below `2 ^ target` has ones. -/
theorem foldEach_ingest_counts {target : Nat} (htarget : target < wordRange)
    {leaves : List (Bytes × Nat)} (hleaves : ∀ leaf ∈ leaves, leaf.1.length = size) {count : Nat}
    (hfit : count + leaves.length ≤ 2 ^ target) {pass : NodeStack × σ}
    (hpass : Counts size 0 count pass.1) :
    (Recorded.foldEach (t.traced.ingest visit) pass leaves).Succeeds
      (fun stack => stack.length ≤ target + 1)
      (fun after => Counts size 0 (count + leaves.length) after.1) := by
  induction leaves generalizing count pass with
  | nil => exact Recorded.succeeds_pure hpass
  | cons leaf leaves ih =>
    rw [List.length_cons] at hfit ⊢
    obtain ⟨hleaf, hleaves⟩ := List.forall_mem_cons.1 hleaves
    have hcount : count < 2 ^ target := by omega
    have hbound : pass.1.length ≤ target := hpass.length_eq ▸ length_bitIndices_le hcount
    refine (climb_counts visit hsized htarget hcount hpass hbound rfl hleaf leaf.2 _).bind
      fun after hafter => ?_
    rw [Nat.add_comm leaves.length, ← Nat.add_assoc]
    exact ih hleaves (by omega) hafter

/-- After any number of batches the stack has counted the leaves taken in so far. -/
theorem passBatches_counts {target : Nat} (htarget : target < wordRange)
    {batch rounds start first count : Nat} (hfit : first + count ≤ 2 ^ target)
    (hrounds : count ≤ rounds * batch) {pass : NodeStack × σ}
    (hpass : Counts size 0 first pass.1) :
    (t.traced.passBatches visit batch rounds start count pass).Succeeds
      (fun stack => stack.length ≤ target + 1)
      (fun after => Counts size 0 (first + count) after.1) := by
  induction rounds generalizing start first count pass with
  | zero =>
    obtain rfl : count = 0 := by omega
    exact Recorded.succeeds_pure hpass
  | succ rounds ih =>
    obtain ⟨taken, rest, htaken, rfl, hrest⟩ := exists_batch hrounds
    have hsizes : ∀ leaf ∈ ((List.range' start taken).map (t.nodeValue 0)).zipIdx start,
        leaf.1.length = size := by
      rintro ⟨value, index⟩ hleaf
      obtain ⟨number, -, rfl⟩ := List.mem_map.1 (List.fst_mem_of_mem_zipIdx hleaf)
      exact hsized.length_nodeValue 0 number
    have hlength : (((List.range' start taken).map (t.nodeValue 0)).zipIdx start).length =
        taken := by
      rw [List.length_zipIdx, List.length_map, List.length_range']
    rw [RecordedTree.passBatches, htaken, Nat.add_sub_cancel_left, forEach_leaf_traced]
    refine Recorded.succeeds_lift_bind (hsized.total.mapM_leaf_eq _) ?_
    have hingested := foldEach_ingest_counts visit hsized htarget hsizes
      (show first + _ ≤ 2 ^ target by rw [hlength]; omega) hpass
    rw [hlength] at hingested
    refine hingested.bind fun after hafter => ?_
    rw [← Nat.add_assoc]
    exact ih (by omega) hrest hafter

/-- A pass from any leaf on succeeds, with a node of the height asked for, and on the way its stack
never holds more than `target + 1` nodes. -/
theorem traced_reduceWith_succeeds {batch start target : Nat} (hbatch : 0 < batch)
    (htarget : target ≤ maxTreeHeight) (hrange : start + 2 ^ target ≤ maxLeafEnd) (seen : σ) :
    (t.traced.reduceWith visit batch start target seen).Succeeds
      (fun stack => stack.length ≤ target + 1) (fun result => result.1.height = target) := by
  have hword := lt_wordRange htarget
  have hrounds := le_rounds_mul (2 ^ target) hbatch
  refine Recorded.succeeds_lift_bind (if_pos htarget) ?_
  dsimp only
  rw [if_pos hrange]
  refine (passBatches_counts visit hsized hword (Nat.le_of_eq (Nat.zero_add _)) hrounds
    (counts_nil size 0)).bind fun after hafter => ?_
  rw [Nat.zero_add] at hafter
  obtain ⟨root, hfinish, hroot⟩ := hafter.finish_eq_ok
  exact Recorded.succeeds_lift_bind hfinish (Recorded.succeeds_pure hroot)

end Pass

end MerkleSignature.MerkleTree
