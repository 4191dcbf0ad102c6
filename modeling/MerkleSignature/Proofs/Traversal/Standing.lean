import MerkleSignature.Proofs.Traversal.Schedule
import MerkleSignature.Proofs.Tree.SubtreeBuilder
import MerkleSignature.Tree.Traversal

/-!
# Where a traversal stands

A traversal that stands at a leaf is described by this leaf and a workload. Its path is the
authentication path of the leaf. The builder of a level works on the right node that the path of
this level needs next, and its own nodes are the peaks of the leaves it has taken in. The shared
stack is the nodes of all builders, those of lower levels nearer to the top.

When the workload is disciplined, heights increase strictly from the top of this stack down. That
is why a builder can find the lowest of its nodes without knowing whose nodes the topmost ones are.
-/

namespace MerkleSignature.Traversal

open MerkleTree SubtreeBuilder

/-- The first leaf below the right node that the path needs next on a level. -/
def aheadStart (leaf level : Nat) : Nat := (2 * (leaf / 2 ^ (level + 1)) + 3) * 2 ^ level

/-- The right node that the path needs next on a level. -/
def aheadNode (t : MerkleTree) (leaf level : Nat) : Node :=
  t.blockNode (aheadStart leaf level) level 0

/-- The nodes on the shared stack that belong to the builder of a level. -/
def block (t : MerkleTree) (leaf : Nat) (work : Workload) (level : Nat) : NodeStack :=
  if work level = 0 then [] else t.peaks (aheadStart leaf level) 0 (2 ^ level - work level)

/-- The nodes of all builders. -/
def blocks (t : MerkleTree) (leaf : Nat) (work : Workload) : NodeStack :=
  (List.range t.height).flatMap (block t leaf work)

/-- The builder of a level for a traversal that stands at `leaf`, with a number of leaves
missing. -/
inductive BuilderAt (t : MerkleTree) (leaf level : Nat) : (missing : Nat) → SubtreeBuilder → Prop
  /-- A builder that is not running holds the next right node of the path, if there is one. -/
  | waiting {b : SubtreeBuilder} (target_eq : b.target = level) (ownNodes_eq : b.ownNodes = 0)
      (phase_eq : b.phase = .complete)
      (root_eq : aheadStart leaf level < 2 ^ t.height → b.root = some (aheadNode t leaf level)) :
      BuilderAt t leaf level 0 b
  /-- A builder that is running has taken in all but the missing leaves. -/
  | busy {missing : Nat} (pos : 0 < missing) (inside : aheadStart leaf level < 2 ^ t.height) :
      BuilderAt t leaf level missing
        (working t level (aheadStart leaf level) (2 ^ level - missing))

/-- The traversal of a tree stands at a leaf with a given workload. -/
structure Stands (t : MerkleTree) (leaf : Nat) (work : Workload) (s : Traversal) : Prop where
  height_eq : s.height = t.height
  path_eq : s.path = t.authPath leaf
  length_kept : s.kept.length = t.height
  /-- A right node is kept from when the path leaves it until it is joined. -/
  kept_eq : ∀ level, level + 1 < t.height → leaf >>> level % 2 = 1 →
    leaf >>> (level + 1) % 2 = 0 → s.kept[level]? = some (some (t.nodeValue level (leaf >>> level)))
  length_builders : s.builders.length = t.height
  builders_eq : ∀ level b, s.builders[level]? = some b → BuilderAt t leaf level (work level) b
  stack_eq : s.stack = blocks t leaf work

variable {t : MerkleTree} {leaf level : Nat} {work : Workload}

/-- Every level has a builder. -/
theorem Stands.exists_builder {s : Traversal} (hs : Stands t leaf work s)
    (hlevel : level < t.height) :
    ∃ b, s.builders[level]? = some b ∧ BuilderAt t leaf level (work level) b := by
  have hlength : level < s.builders.length := hs.length_builders ▸ hlevel
  have hb : s.builders[level]? = some s.builders[level] := List.getElem?_eq_getElem hlength
  exact ⟨_, hb, hs.builders_eq level _ hb⟩

/-- The subtree that is built ahead is aligned. -/
theorem aligned_aheadStart (leaf level : Nat) : 2 ^ level ∣ aheadStart leaf level :=
  Nat.dvd_mul_left _ _

/-- An aligned subtree that starts inside the tree ends inside it. -/
theorem aheadStart_add_le {height : Nat} (hlevel : level ≤ height)
    (hstart : aheadStart leaf level < 2 ^ height) :
    aheadStart leaf level + 2 ^ level ≤ 2 ^ height := by
  unfold aheadStart at hstart ⊢
  rw [← Nat.pow_sub_mul_pow 2 hlevel] at hstart ⊢
  rw [← Nat.succ_mul]
  exact Nat.mul_le_mul_right _ (Nat.lt_of_mul_lt_mul_right hstart)

/-- A builder owns nodes only while it is under way. -/
theorem block_eq_nil (hwork : Disciplined t.height work)
    (h : ¬ (0 < work level ∧ work level < 2 ^ level)) : block t leaf work level = [] := by
  have hle := hwork.work_le level
  unfold block
  split
  · rfl
  · rw [show 2 ^ level - work level = 0 by omega, peaks_zero]

/-- While it is under way a builder owns the peaks of its leaves. -/
theorem block_eq_peaks (hpos : 0 < work level) :
    block t leaf work level = t.peaks (aheadStart leaf level) 0 (2 ^ level - work level) :=
  if_neg (Nat.ne_of_gt hpos)

/-- The nodes of a builder stand below its target. -/
theorem height_lt_of_mem_block {node : Node} (h : node ∈ block t leaf work level) :
    node.height < level := by
  unfold block at h
  split at h
  · simp at h
  · rename_i hwork
    have hpos := Nat.two_pow_pos level
    have hlt : node.height < 0 + level :=
      height_lt_of_mem_peaks (show 2 ^ level - work level < 2 ^ level by omega) h
    omega

/-- A power of two divides the work of a builder exactly when the builder's nodes stand that
high. -/
theorem forall_le_height_block_iff (leaf : Nat) (hwork : Disciplined t.height work)
    (hpos : 0 < work level) {height : Nat} (hheight : height ≤ level) :
    (∀ node ∈ block t leaf work level, height ≤ node.height) ↔ 2 ^ height ∣ work level := by
  have hpeaks : (∀ node ∈ t.peaks (aheadStart leaf level) 0 (2 ^ level - work level),
      0 + height ≤ node.height) ↔ 2 ^ height ∣ 2 ^ level - work level :=
    forall_le_height_peaks_iff 0 _ height
  rw [Nat.zero_add] at hpeaks
  rw [block_eq_peaks hpos, hpeaks, Nat.dvd_sub_iff_right (hwork.work_le level)
    (Nat.pow_dvd_pow 2 hheight)]

/-- From the top of the stack down heights increase strictly. -/
theorem pairwise_height_blocks (leaf : Nat) (hwork : Disciplined t.height work) :
    (blocks t leaf work).Pairwise fun a b => a.height < b.height := by
  refine List.pairwise_flatMap.2 ⟨fun level _ => ?_, ?_⟩
  · unfold block
    split
    · exact List.Pairwise.nil
    · exact pairwise_height_peaks 0 _
  · refine List.pairwise_lt_range.imp fun {low high} hlt a ha b hb => ?_
    have hlow : 0 < work low ∧ work low < 2 ^ low := by
      by_contra hidle
      rw [block_eq_nil hwork hidle] at ha
      simp at ha
    have hhigh : 0 < work high ∧ work high < 2 ^ high := by
      by_contra hidle
      rw [block_eq_nil hwork hidle] at hb
      simp at hb
    have hdvd := hwork.nested low high hlt hlow.1 hlow.2
    exact Nat.lt_of_lt_of_le (height_lt_of_mem_block ha)
      ((forall_le_height_block_iff leaf hwork hhigh.1 (Nat.le_of_lt hlt)).2 hdvd b hb)

/-- The nodes of a builder are on the stack. -/
theorem mem_blocks_of_mem_block (hlevel : level < t.height) {node : Node}
    (h : node ∈ block t leaf work level) : node ∈ blocks t leaf work :=
  List.mem_flatMap.2 ⟨level, List.mem_range.2 hlevel, h⟩

/-- The nodes of the lowest builder that owns any are on top of the stack. -/
theorem blocks_eq_append (hlevel : level < t.height)
    (hlower : ∀ low, low < level → block t leaf work low = []) :
    blocks t leaf work = block t leaf work level ++
      (List.range' (level + 1) (t.height - (level + 1))).flatMap (block t leaf work) := by
  have hsplit : List.range t.height =
      List.range' 0 level ++ level :: List.range' (level + 1) (t.height - (level + 1)) := by
    have happend : List.range' 0 level ++ List.range' (0 + level) (t.height - (level + 1) + 1) =
        List.range' 0 (level + (t.height - (level + 1) + 1)) := List.range'_append_1
    rw [Nat.zero_add, show level + (t.height - (level + 1) + 1) = t.height by omega] at happend
    rw [← List.range'_succ, happend, List.range_eq_range']
  have hnil : (List.range' 0 level).flatMap (block t leaf work) = [] := by
    refine List.flatMap_eq_nil_iff.2 fun low hlow => hlower low ?_
    have := List.mem_range'_1.1 hlow
    omega
  rw [blocks, hsplit, List.flatMap_append, hnil, List.nil_append, List.flatMap_cons]

end MerkleSignature.Traversal
