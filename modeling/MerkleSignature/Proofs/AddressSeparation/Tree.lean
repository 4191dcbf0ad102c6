import MerkleSignature.Proofs.AddressSeparation.Leaf

/-!
# No address is used twice for a tree

A pass takes in the leaves of a tree from left to right, and a leaf is joined with the peaks that
the carry runs through. So a node of the hash tree is computed together with the last leaf below it.
That leaf is determined by the level and the index of the node, which are words of the address, and
while one leaf is taken in the levels rise.

Every address therefore belongs to one leaf in turn. In a batch the addresses of chains and L-trees
come first and those of the hash tree follow; they have different kinds.
-/

namespace MerkleSignature

open Recorded MerkleTree

/-- The leaf that is in turn when an address is used: the leaf that a chain or an L-tree belongs to,
or the last leaf below a node of the hash tree. -/
def Address.leafInTurn (a : Address) : Nat :=
  if a.kind = 2 then (a.third + 1) * 2 ^ (a.second + 1) - 1 else a.first

/-- The last leaf below a node tells the index of the node. -/
theorem div_of_succ_eq_mul {leaf index level : Nat} (h : leaf + 1 = (index + 1) * 2 ^ level) :
    leaf / 2 ^ level = index := by
  have hpos := Nat.two_pow_pos level
  rw [Nat.succ_mul] at h
  rw [Nat.div_eq_iff hpos]
  omega

/-- Above a right node, the last leaf is the same. -/
theorem succ_eq_mul_of_odd {leaf index level : Nat}
    (h : leaf + 1 = (2 * index + 1 + 1) * 2 ^ level) :
    leaf + 1 = (index + 1) * 2 ^ (level + 1) := by
  rw [h, Nat.pow_succ', ← Nat.mul_assoc]
  congr 1
  omega

/-- There are far fewer leaves than a word can count. -/
theorem two_pow_le_wordRange {height : Nat} (h : height ≤ maxTreeHeight) :
    2 ^ height ≤ wordRange :=
  (Nat.pow_le_pow_right (by decide) h).trans (by decide)

namespace MerkleTree

/-- The number of joins while `count` leaves from `first` on are taken in: each leaf adds a node and
each join takes one away. -/
def joinCount (t : MerkleTree) (first count : Nat) : Nat :=
  (t.peaks 0 0 first).length + count - (t.peaks 0 0 (first + count)).length

variable (t : MerkleTree)

/-- One more node leaves at most one more peak. -/
theorem length_peaks_succ_le (level count : Nat) :
    (t.peaks 0 level (count + 1)).length ≤ (t.peaks 0 level count).length + 1 := by
  induction count using Nat.evenOddRec generalizing level with
  | h0 => rw [peaks_odd level 0, peaks_zero, peaks_zero, List.length_singleton, List.length_nil]
  | h_even count ih => rw [peaks_odd, peaks_even, List.length_cons]
  | h_odd count ih =>
    rw [show 2 * count + 1 + 1 = 2 * (count + 1) by omega, peaks_even, peaks_odd, List.length_cons]
    exact (ih (level + 1)).trans (Nat.le_succ _)

/-- Some more leaves leave at most as many more peaks. -/
theorem length_peaks_add_le (first count : Nat) :
    (t.peaks 0 0 (first + count)).length ≤ (t.peaks 0 0 first).length + count := by
  induction count with
  | zero => exact Nat.le_refl _
  | succ count ih => exact (t.length_peaks_succ_le 0 (first + count)).trans (by omega)

/-- Without a leaf nothing is joined. -/
theorem joinCount_zero (first : Nat) : t.joinCount first 0 = 0 := Nat.sub_self _

/-- The joins of some leaves and then of some more are those of all of them. -/
theorem joinCount_add (first count more : Nat) :
    t.joinCount first (count + more) =
      t.joinCount first count + t.joinCount (first + count) more := by
  have hcount := t.length_peaks_add_le first count
  have hmore := t.length_peaks_add_le (first + count) more
  unfold joinCount
  rw [← Nat.add_assoc first count more]
  omega

/-- All leaves of a tree are joined to one root. -/
theorem joinCount_two_pow (height : Nat) : t.joinCount 0 (2 ^ height) = 2 ^ height - 1 := by
  rw [joinCount, peaks_zero, Nat.zero_add, peaks_two_pow, List.length_nil, Nat.zero_add,
    List.length_singleton]

end MerkleTree

namespace KeyTree

/-- The number of keys and masks that are derived for a tree: those of its leaves, and three for
each join, of which there is one less than there are leaves. -/
def derivations (k : KeyTree) (height : Nat) : Nat :=
  2 ^ height * k.leafDerivations + 3 * (2 ^ height - 1)

variable {k : KeyTree} {σ : Type} (hseeds : k.WellSeeded) (visit : σ → Node → Nat → σ)

/-- Two neighbours are joined under the address of their level and of the index of their parent. -/
theorem once_combine {level leaf index : Nat} (hlevel : level < wordRange)
    (hleaf : leaf < wordRange) (hlast : leaf + 1 = (index + 1) * 2 ^ (level + 1)) :
    OnceAt k.position (fun a => a.kind = 2 ∧ a.second = level ∧ a.third = index) 3
      (k.notedTree.combine (k.tree.blockNode 0 level (2 * index))
        (k.tree.blockNode 0 level (2 * index + 1)) (leaf >>> (level + 1))) := by
  have hparent : leaf >>> (level + 1) = index := by
    rw [Nat.shiftRight_eq_div_pow, div_of_succ_eq_mul hlast]
  have hindex : index < wordRange := by
    have hle := Nat.div_le_self leaf (2 ^ (level + 1))
    rw [div_of_succ_eq_mul hlast] at hle
    omega
  rw [RecordedTree.combine, if_pos (by rw [blockNode_height, blockNode_height]), hparent,
    blockNode_height]
  have hjoin : OnceAt k.position (fun a => a.kind = 2 ∧ a.second = level ∧ a.third = index) 3
      (k.notedTree.join level index (k.tree.blockNode 0 level (2 * index)).value
        (k.tree.blockNode 0 level (2 * index + 1)).value) :=
    (Digest.once_noteJoin _ _ _).mono fun a ha => Address.words_of_hashTree hlevel hindex ha
  apply hjoin.bind_silent
  intro value
  exact once_pure _

include hseeds

/-- A node is joined with the peaks before it, level by level, while its last leaf is taken in. Each
join leaves one peak less. -/
theorem once_climb {target leaf : Nat} (htarget : target < wordRange) {level count : Nat}
    (hcount : count < 2 ^ (target - level)) (hlast : leaf + 1 = (count + 1) * 2 ^ level)
    (hleaf : leaf < wordRange) (seen : σ) :
    OnceAt k.position
      (fun a => a.kind = 2 ∧ level ≤ a.second ∧ (a.third + 1) * 2 ^ (a.second + 1) = leaf + 1)
      (3 * ((k.tree.peaks 0 level count).length + 1 - (k.tree.peaks 0 level (count + 1)).length))
      (k.notedTree.climb visit leaf (k.tree.peaks 0 level count) (k.tree.blockNode 0 level count)
        seen) := by
  induction count using Nat.evenOddRec generalizing level seen with
  | h0 =>
    rw [peaks_odd level 0, peaks_zero, peaks_zero, RecordedTree.climb, onStack_notedTree,
      tell_nil_bind]
    exact once_pure _
  | h_even count ih =>
    rw [peaks_odd, peaks_even, List.length_cons, Nat.sub_self, Nat.mul_zero]
    cases hpeaks : k.tree.peaks 0 (level + 1) count with
    | nil =>
      rw [RecordedTree.climb, onStack_notedTree, tell_nil_bind]
      exact once_pure _
    | cons top rest =>
      -- The smallest peak stands above the level of the node, so nothing is joined.
      have hmem : top ∈ k.tree.peaks 0 (level + 1) count := by
        rw [hpeaks]
        exact List.mem_cons_self
      have htop : level + 1 ≤ top.height := le_height_of_mem_peaks hmem
      rw [RecordedTree.climb, if_neg (by rw [blockNode_height]; omega), onStack_notedTree,
        tell_nil_bind]
      exact once_pure _
  | h_odd count ih =>
    obtain ⟨hlt, hparentCount⟩ := parent_lt hcount
    have hparent := succ_eq_mul_of_odd hlast
    have hcombine := (total hseeds).combine_blockNode (Nat.dvd_zero (2 ^ target)) hlt htarget
      (show leaf / 2 ^ level = 0 / 2 ^ level + (2 * count + 1) by
        rw [div_of_succ_eq_mul hlast, Nat.zero_div, Nat.zero_add])
    have habove : ∀ parent, (k.notedTree.combine (k.tree.blockNode 0 level (2 * count))
          (k.tree.blockNode 0 level (2 * count + 1)) (leaf >>> (level + 1))).value = .ok parent →
        OnceAt k.position
          (fun a => a.kind = 2 ∧ level + 1 ≤ a.second ∧
            (a.third + 1) * 2 ^ (a.second + 1) = leaf + 1)
          (3 * ((k.tree.peaks 0 (level + 1) count).length + 1 -
            (k.tree.peaks 0 (level + 1) (count + 1)).length))
          (k.notedTree.climb visit leaf (k.tree.peaks 0 (level + 1) count) parent
            (visit seen parent (leaf >>> parent.height))) := by
      intro parent hvalue
      rw [RecordedTree.value_combine, value_notedTree, hcombine] at hvalue
      obtain rfl := Except.ok.inj hvalue
      exact ih hparentCount hparent _
    have hpeaks := k.tree.length_peaks_succ_le (level + 1) count
    rw [show 2 * count + 1 + 1 = 2 * (count + 1) by omega, peaks_even, peaks_odd, List.length_cons,
      RecordedTree.climb, if_pos (by rw [blockNode_height, blockNode_height]), onStack_notedTree,
      tell_nil_bind]
    apply (once_combine (hlt.trans htarget) hleaf hparent).bind habove
    · rintro a ⟨hkind, hsecond, hthird⟩
      rw [hsecond, hthird]
      exact ⟨⟨hkind, Nat.le_refl level, hparent.symm⟩, by omega⟩
    · rintro a ⟨hkind, hsecond, hlast⟩
      exact ⟨hkind, by omega, hlast⟩
    · omega

variable {target : Nat} (htarget : target ≤ maxTreeHeight)
include htarget

/-- While a leaf is taken in, the nodes are joined whose last leaf it is. -/
theorem once_ingest {leaf : Nat} (hleaf : leaf < 2 ^ target) (seen : σ) :
    OnceAt k.position (fun a => a.kind = 2 ∧ a.leafInTurn = leaf) (3 * k.tree.joinCount leaf 1)
      (k.notedTree.ingest visit (k.tree.peaks 0 0 leaf, seen) (k.tree.nodeValue 0 leaf, leaf)) := by
  have hrange := two_pow_le_wordRange htarget
  have hnode : k.tree.blockNode 0 0 leaf = ⟨0, k.tree.nodeValue 0 leaf⟩ := by
    rw [blockNode, Nat.zero_div, Nat.zero_add]
    rfl
  have hclimb := once_climb hseeds visit (lt_wordRange htarget)
    (show leaf < 2 ^ (target - 0) from hleaf) (show leaf + 1 = (leaf + 1) * 2 ^ 0 by omega)
    (by omega) (visit seen ⟨0, k.tree.nodeValue 0 leaf⟩ leaf)
  rw [hnode] at hclimb
  apply hclimb.mono
  rintro a ⟨hkind, -, hlast⟩
  rw [Address.leafInTurn, if_pos hkind, hlast, Nat.add_sub_cancel]
  exact ⟨hkind, rfl⟩

/-- After some leaves the stack holds the peaks that include them. -/
theorem pass_eq {first size : Nat} (hfit : first + size ≤ 2 ^ target) {seen : σ}
    {pass : NodeStack × σ}
    (h : (foldEach (k.notedTree.ingest visit) (k.tree.peaks 0 0 first, seen)
      (((List.range' first size).map (k.tree.nodeValue 0)).zipIdx first)).value = .ok pass) :
    ∃ after, pass = (k.tree.peaks 0 0 (first + size), after) := by
  have hpass := foldlM_ingest visit (total hseeds) (Nat.dvd_zero (2 ^ target))
    (lt_wordRange htarget) hfit seen
  rw [Nat.zero_add] at hpass
  simp only [value_foldEach, RecordedTree.value_ingest, value_notedTree] at h
  rw [hpass] at h
  exact ⟨_, (Except.ok.inj h).symm⟩

/-- The leaves are taken in one after the other. -/
theorem once_foldEach_ingest {first size : Nat} (hfit : first + size ≤ 2 ^ target) (seen : σ) :
    OnceAt k.position
      (fun a => a.kind = 2 ∧ first ≤ a.leafInTurn ∧ a.leafInTurn < first + size)
      (3 * k.tree.joinCount first size)
      (foldEach (k.notedTree.ingest visit) (k.tree.peaks 0 0 first, seen)
        (((List.range' first size).map (k.tree.nodeValue 0)).zipIdx first)) := by
  induction size generalizing first seen with
  | zero =>
    rw [joinCount_zero, Nat.mul_zero]
    exact once_pure _
  | succ size ih =>
    have hrest : ∀ pass, (k.notedTree.ingest visit (k.tree.peaks 0 0 first, seen)
          (k.tree.nodeValue 0 first, first)).value = .ok pass →
        OnceAt k.position
          (fun a => a.kind = 2 ∧ first + 1 ≤ a.leafInTurn ∧ a.leafInTurn < first + 1 + size)
          (3 * k.tree.joinCount (first + 1) size)
          (foldEach (k.notedTree.ingest visit) pass
            (((List.range' (first + 1) size).map (k.tree.nodeValue 0)).zipIdx (first + 1))) := by
      intro pass hvalue
      have hone : (foldEach (k.notedTree.ingest visit) (k.tree.peaks 0 0 first, seen)
          (((List.range' first 1).map (k.tree.nodeValue 0)).zipIdx first)).value = .ok pass := by
        simp [foldEach, hvalue]
      obtain ⟨after, rfl⟩ := pass_eq hseeds visit htarget (by omega) hone
      exact ih (by omega) after
    rw [List.range'_succ, List.map_cons, List.zipIdx_cons, foldEach]
    apply (once_ingest hseeds visit htarget (by omega) seen).bind hrest
    · intro a ha
      omega
    · intro a ha
      omega
    · rw [Nat.add_comm size 1, joinCount_add, Nat.mul_add]

omit htarget in
/-- The leaves of a batch are computed one after the other. -/
theorem once_leaves {first size : Nat} (hfit : first + size ≤ wordRange) :
    OnceAt k.position
      (fun a => a.kind < 2 ∧ first ≤ a.leafInTurn ∧ a.leafInTurn < first + size)
      (size * k.leafDerivations) (forEach k.notedTree.leaf (List.range' first size)) := by
  have hleaves : ∀ index ∈ List.range' first size, OnceAt k.position
      (fun a => a.kind < 2 ∧ a.first = index) k.leafDerivations (k.notedTree.leaf index) := by
    intro index hindex
    rw [List.mem_range'_1] at hindex
    exact once_noteLeaf hseeds (by omega)
  have hnumbers : (List.range' first size).Pairwise (· ≠ ·) := List.nodup_range'
  have hall := once_forEach hleaves (hnumbers.imp fun hne a ha ha' => by omega)
  rw [List.length_range'] at hall
  apply hall.mono
  rintro a ⟨index, hindex, hposition, hkind, hfirst⟩
  rw [List.mem_range'_1] at hindex
  have hturn : a.leafInTurn = index := by
    rw [Address.leafInTurn, if_neg (by omega), hfirst]
  exact ⟨hposition, by omega⟩

omit htarget in
/-- The leaves of a batch have the values of their nodes. -/
theorem leaves_eq {first size : Nat} {leaves : List Bytes}
    (h : (forEach k.notedTree.leaf (List.range' first size)).value = .ok leaves) :
    leaves = (List.range' first size).map (k.tree.nodeValue 0) := by
  rw [value_forEach] at h
  change (List.range' first size).mapM k.notedTree.value.leaf = _ at h
  rw [value_notedTree, (total hseeds).mapM_leaf_eq] at h
  exact (Except.ok.inj h).symm

/-- The batches of a pass follow each other. In a batch the leaves come first, and then they are
taken in. -/
theorem once_passBatches {batch rounds first count : Nat} (hfit : first + count ≤ 2 ^ target)
    (hrounds : count ≤ rounds * batch) (seen : σ) :
    OnceAt k.position (fun a => first ≤ a.leafInTurn)
      (count * k.leafDerivations + 3 * k.tree.joinCount first count)
      (k.notedTree.passBatches visit batch rounds first count (k.tree.peaks 0 0 first, seen)) := by
  have hrange := two_pow_le_wordRange htarget
  induction rounds generalizing first count seen with
  | zero =>
    obtain rfl : count = 0 := by omega
    rw [Nat.zero_mul, joinCount_zero]
    exact once_pure _
  | succ rounds ih =>
    obtain ⟨size, rest, hsize, rfl, hrest⟩ := exists_batch hrounds
    have hlater : ∀ pass, (foldEach (k.notedTree.ingest visit) (k.tree.peaks 0 0 first, seen)
          (((List.range' first size).map (k.tree.nodeValue 0)).zipIdx first)).value = .ok pass →
        OnceAt k.position (fun a => first + size ≤ a.leafInTurn)
          (rest * k.leafDerivations + 3 * k.tree.joinCount (first + size) rest)
          (k.notedTree.passBatches visit batch rounds (first + size) rest pass) := by
      intro pass hpass
      obtain ⟨after, rfl⟩ := pass_eq hseeds visit htarget (by omega) hpass
      exact ih (by omega) hrest after
    have hingested : ∀ leaves, (forEach k.notedTree.leaf (List.range' first size)).value =
          .ok leaves →
        OnceAt k.position
          (fun a => a.kind = 2 ∧ first ≤ a.leafInTurn ∨ first + size ≤ a.leafInTurn)
          (rest * k.leafDerivations + 3 * k.tree.joinCount first (size + rest)) (do
          let pass ← foldEach (k.notedTree.ingest visit) (k.tree.peaks 0 0 first, seen)
            (leaves.zipIdx first)
          k.notedTree.passBatches visit batch rounds (first + size) rest pass) := by
      intro leaves hleaves
      rw [leaves_eq hseeds hleaves, joinCount_add]
      apply (once_foldEach_ingest hseeds visit htarget (by omega) seen).bind hlater
      · intro a ha
        omega
      · intro a ha
        omega
      · omega
    rw [RecordedTree.passBatches, hsize, Nat.add_sub_cancel_left]
    apply (once_leaves hseeds (by omega)).bind hingested
    · intro a ha
      omega
    · intro a ha
      omega
    · rw [Nat.add_mul, Nat.add_assoc]

/-- The addresses that are used while a tree is built are addresses of this tree, and none of them
is used twice. -/
theorem once_subtreeRoot :
    Once (fun a => a.position = k.position) (k.derivations target)
      (k.notedTree.subtreeRoot 0 target) := by
  have hempty : k.tree.peaks 0 0 0 = [] := peaks_zero 0
  have hrounds := le_rounds_mul (2 ^ target) (show 0 < leafBatch by decide)
  rw [RecordedTree.subtreeRoot, RecordedTree.reduceWith, ← hempty, derivations,
    ← k.tree.joinCount_two_pow target]
  refine Once.bind_silent (once_lift_bind fun _ _ => ?_) fun _ => once_pure _
  dsimp only
  split
  · refine Once.bind_silent ?_ fun _ => once_lift_bind fun _ _ => once_pure _
    exact Once.mono (once_passBatches hseeds _ htarget (by omega) hrounds ()) fun a ha => ha.1
  · exact once_error _

end KeyTree

end MerkleSignature
