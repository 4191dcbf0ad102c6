import Mathlib.Tactic.Positivity
import MerkleSignature.Proofs.Tree.Pass

/-!
# What a pass shows to its visitor

A node arises with the last leaf below it, so that its level and its index determine the leaf with
which a visitor sees it. While one leaf is taken in the levels rise. A visitor therefore sees no
node twice, and when the subtree is finished it has seen every node of it.
-/

namespace MerkleSignature.MerkleTree

variable {t : MerkleTree} {start : Nat}

/-- The place of the node that is visited: its level and its index. -/
def place (v : Visit) : Nat × Nat := (v.1.height, v.2)

@[simp] theorem place_blockVisit (level index : Nat) :
    place (t.blockVisit start level index) = (level, start / 2 ^ level + index) := rfl

/-- When a node joins the peaks before it, nodes of the tree arise above it, each with its last
leaf. -/
theorem exists_of_mem_joinVisits {level count : Nat} {v : Visit}
    (h : v ∈ t.joinVisits start level count) :
    ∃ rise index, (index + 1) * 2 ^ (rise + 1) = count + 1 ∧
      v = t.blockVisit start (level + (rise + 1)) index := by
  induction count using Nat.evenOddRec generalizing level with
  | h0 =>
    have hnone : t.joinVisits start level 0 = [] := joinVisits_even level 0
    simp [hnone] at h
  | h_even count ih => simp [joinVisits_even] at h
  | h_odd count ih =>
    rw [joinVisits_odd] at h
    rcases List.mem_cons.1 h with rfl | hrest
    · exact ⟨0, count, by omega, rfl⟩
    · obtain ⟨rise, index, hlast, rfl⟩ := ih hrest
      refine ⟨rise + 1, index, ?_, by rw [Nat.add_assoc, Nat.add_comm 1]⟩
      rw [Nat.pow_succ, ← Nat.mul_assoc, hlast]
      omega

/-- While a leaf is taken in, nodes of the tree are visited whose last leaf it is. -/
theorem exists_of_mem_leafVisits {leaf : Nat} {v : Visit} (h : v ∈ t.leafVisits start leaf) :
    ∃ level index, (index + 1) * 2 ^ level = leaf + 1 ∧ v = t.blockVisit start level index := by
  rcases List.mem_cons.1 h with rfl | hrest
  · exact ⟨0, leaf, Nat.mul_one _, rfl⟩
  · obtain ⟨rise, index, hlast, rfl⟩ := exists_of_mem_joinVisits hrest
    exact ⟨rise + 1, index, hlast, by rw [Nat.zero_add]⟩

/-- Only nodes of the tree are shown to a visitor, each with its index, once all leaves below them
are taken in. -/
theorem exists_of_mem_passVisits {count : Nat} {v : Visit} (h : v ∈ t.passVisits start count) :
    ∃ level index, (index + 1) * 2 ^ level ≤ count ∧ v = t.blockVisit start level index := by
  obtain ⟨leaf, hleaf, hmem⟩ := List.mem_flatMap.1 h
  obtain ⟨level, index, hlast, rfl⟩ := exists_of_mem_leafVisits hmem
  have hcount := (List.mem_range'_1.1 hleaf).2
  exact ⟨level, index, by omega, rfl⟩

/-- The node that becomes complete with a given leaf is visited when that leaf is joined. -/
theorem blockVisit_mem_joinVisits (level height index : Nat) :
    t.blockVisit start (level + (height + 1)) index ∈
      t.joinVisits start level ((index + 1) * 2 ^ (height + 1) - 1) := by
  induction height generalizing level with
  | zero =>
    rw [show (index + 1) * 2 ^ (0 + 1) - 1 = 2 * index + 1 by omega, joinVisits_odd]
    exact List.mem_cons_self
  | succ height ih =>
    have hpos : 0 < (index + 1) * 2 ^ (height + 1) := by positivity
    have hodd : (index + 1) * 2 ^ (height + 1 + 1) - 1 =
        2 * ((index + 1) * 2 ^ (height + 1) - 1) + 1 := by
      rw [Nat.pow_succ, ← Nat.mul_assoc]
      omega
    rw [hodd, joinVisits_odd, show level + (height + 1 + 1) = level + 1 + (height + 1) by omega]
    exact List.mem_cons_of_mem _ (ih (level + 1))

/-- A node lies in the subtree of height `target` exactly when its last leaf does. -/
theorem mul_two_pow_le_iff {target level index : Nat} :
    (index + 1) * 2 ^ level ≤ 2 ^ target ↔ level ≤ target ∧ index < 2 ^ (target - level) := by
  constructor
  · intro h
    have hlevel : level ≤ target :=
      (Nat.pow_le_pow_iff_right (by decide)).1
        ((Nat.le_mul_of_pos_left _ (Nat.succ_pos index)).trans h)
    refine ⟨hlevel, ?_⟩
    rw [← Nat.pow_sub_mul_pow 2 hlevel] at h
    exact Nat.le_of_mul_le_mul_right h (Nat.two_pow_pos level)
  · rintro ⟨hlevel, hindex⟩
    rw [← Nat.pow_sub_mul_pow 2 hlevel]
    exact Nat.mul_le_mul_right _ hindex

/-- Every node of the subtree is shown to the visitor. -/
theorem blockVisit_mem_passVisits {target level index : Nat} (hlevel : level ≤ target)
    (hindex : index < 2 ^ (target - level)) :
    t.blockVisit start level index ∈ t.passVisits start (2 ^ target) := by
  have hlast : (index + 1) * 2 ^ level ≤ 2 ^ target := mul_two_pow_le_iff.2 ⟨hlevel, hindex⟩
  have hpos : 0 < (index + 1) * 2 ^ level := by positivity
  refine List.mem_flatMap.2 ⟨(index + 1) * 2 ^ level - 1, ?_, ?_⟩
  · exact List.mem_range'_1.2 ⟨Nat.zero_le _, by omega⟩
  · cases level with
    | zero =>
      rw [leafVisits, Nat.pow_zero, Nat.mul_one, Nat.add_sub_cancel]
      exact List.mem_cons_self
    | succ level =>
      have hmem : t.blockVisit start (0 + (level + 1)) index ∈
          t.joinVisits start 0 ((index + 1) * 2 ^ (level + 1) - 1) :=
        blockVisit_mem_joinVisits 0 level index
      rw [Nat.zero_add] at hmem
      exact List.mem_cons_of_mem _ hmem

/-- While a node joins the peaks before it, the levels rise. -/
theorem pairwise_height_joinVisits (level count : Nat) :
    (t.joinVisits start level count).Pairwise fun u v => u.1.height < v.1.height := by
  induction count using Nat.evenOddRec generalizing level with
  | h0 =>
    have hnone : t.joinVisits start level 0 = [] := joinVisits_even level 0
    rw [hnone]
    exact List.Pairwise.nil
  | h_even count ih =>
    rw [joinVisits_even]
    exact List.Pairwise.nil
  | h_odd count ih =>
    rw [joinVisits_odd]
    refine List.pairwise_cons.2 ⟨fun v hv => ?_, ih (level + 1)⟩
    obtain ⟨rise, index, -, rfl⟩ := exists_of_mem_joinVisits hv
    exact Nat.lt_add_of_pos_right (Nat.succ_pos rise)

/-- While a leaf is taken in, the levels rise. -/
theorem pairwise_height_leafVisits (leaf : Nat) :
    (t.leafVisits start leaf).Pairwise fun u v => u.1.height < v.1.height := by
  refine List.pairwise_cons.2 ⟨fun v hv => ?_, pairwise_height_joinVisits 0 leaf⟩
  obtain ⟨rise, index, -, rfl⟩ := exists_of_mem_joinVisits hv
  exact Nat.lt_add_of_pos_right (Nat.succ_pos rise)

/-- No node is shown to the visitor twice. -/
theorem nodup_place_passVisits (count : Nat) : ((t.passVisits start count).map place).Nodup := by
  rw [List.nodup_iff_pairwise_ne, List.pairwise_map, passVisits, List.pairwise_flatMap]
  constructor
  · intro leaf _
    refine (pairwise_height_leafVisits leaf).imp fun hlt hsame => ?_
    exact Nat.ne_of_lt hlt (congrArg Prod.fst hsame)
  · -- A place belongs to one leaf: the last one below the node.
    have hleaves : (List.range' 0 count).Pairwise (· ≠ ·) := List.nodup_range'
    refine hleaves.imp fun hne u hu v hv hsame => hne ?_
    obtain ⟨level, index, hlast, rfl⟩ := exists_of_mem_leafVisits hu
    obtain ⟨level', index', hlast', rfl⟩ := exists_of_mem_leafVisits hv
    rw [place_blockVisit, place_blockVisit, Prod.mk.injEq] at hsame
    obtain ⟨rfl, hindex⟩ := hsame
    obtain rfl : index = index' := Nat.add_left_cancel hindex
    omega

/-- What is shown to the visitor are the nodes of the subtree, each with its index. -/
theorem mem_passVisits_iff {target : Nat} {v : Visit} :
    v ∈ t.passVisits start (2 ^ target) ↔ ∃ level index, level ≤ target ∧
      index < 2 ^ (target - level) ∧ v = t.blockVisit start level index := by
  constructor
  · intro h
    obtain ⟨level, index, hlast, rfl⟩ := exists_of_mem_passVisits h
    obtain ⟨hlevel, hindex⟩ := mul_two_pow_le_iff.1 hlast
    exact ⟨level, index, hlevel, hindex, rfl⟩
  · rintro ⟨level, index, hlevel, hindex, rfl⟩
    exact blockVisit_mem_passVisits hlevel hindex

/-- The nodes of a level in an aligned subtree are those whose index, scaled up to the root of the
subtree, is that of the root. -/
theorem div_two_pow_eq_iff {target level index : Nat} (haligned : 2 ^ target ∣ start)
    (hlevel : level ≤ target) :
    index / 2 ^ (target - level) = start / 2 ^ target ↔
      ∃ offset, offset < 2 ^ (target - level) ∧ index = start / 2 ^ level + offset := by
  obtain ⟨root, rfl⟩ := haligned
  have hpow : 2 ^ target * root = 2 ^ level * (2 ^ (target - level) * root) := by
    rw [← Nat.mul_assoc, pow_mul_pow_sub 2 hlevel]
  rw [Nat.mul_div_cancel_left root (Nat.two_pow_pos target), hpow,
    Nat.mul_div_cancel_left _ (Nat.two_pow_pos level)]
  constructor
  · rintro rfl
    refine ⟨index % 2 ^ (target - level), Nat.mod_lt _ (Nat.two_pow_pos _), ?_⟩
    rw [Nat.div_add_mod]
  · rintro ⟨offset, hoffset, rfl⟩
    rw [Nat.mul_add_div (Nat.two_pow_pos _), Nat.div_eq_of_lt hoffset, Nat.add_zero]

/-- The visits cover a subtree: every node of it is visited once, with its value and its index. -/
structure CoverSubtree (t : MerkleTree) (start target : Nat) (visits : List Visit) : Prop where
  nodup_place : (visits.map place).Nodup
  mem_iff : ∀ node index, (node, index) ∈ visits ↔ ∃ level, level ≤ target ∧
    index / 2 ^ (target - level) = start / 2 ^ target ∧ t.combinedNode level index = .ok node

/-- The visits of a pass cover the subtree. -/
theorem Total.passVisits_cover (total : t.Total) {target : Nat} (haligned : 2 ^ target ∣ start)
    (htarget : target < wordRange) :
    CoverSubtree t start target (t.passVisits start (2 ^ target)) where
  nodup_place := nodup_place_passVisits (2 ^ target)
  mem_iff node index := by
    rw [mem_passVisits_iff]
    constructor
    · rintro ⟨level, offset, hlevel, hoffset, hvisit⟩
      obtain ⟨rfl, rfl⟩ := Prod.mk.inj hvisit
      exact ⟨level, hlevel, (div_two_pow_eq_iff haligned hlevel).2 ⟨offset, hoffset, rfl⟩,
        total.combinedNode_eq (Nat.lt_of_le_of_lt hlevel htarget) _⟩
    · rintro ⟨level, hlevel, hindex, hnode⟩
      obtain ⟨offset, hoffset, rfl⟩ := (div_two_pow_eq_iff haligned hlevel).1 hindex
      rw [total.combinedNode_eq (Nat.lt_of_le_of_lt hlevel htarget)] at hnode
      exact ⟨level, offset, hlevel, hoffset, by rw [blockVisit, blockNode, Except.ok.inj hnode]⟩

end MerkleSignature.MerkleTree
