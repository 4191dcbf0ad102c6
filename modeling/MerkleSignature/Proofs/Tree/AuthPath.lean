import Mathlib.Data.Nat.Bitwise
import MerkleSignature.Proofs.Tree.Visits

/-!
# Authentication paths

Two algorithms deal with authentication paths. The pass that collects a path keeps one node per
level, the sibling of the leaf's ancestor there. The climb that recomputes a root joins the ancestor
with that sibling, in the order that the bits of the leaf's index give. They walk the tree in
opposite directions and agree on every node.
-/

namespace MerkleSignature.MerkleTree

variable {t : MerkleTree} {leaf : Nat}

/-- The subtree that starts at the first leaf is numbered as the tree is. -/
theorem blockVisit_zero (level index : Nat) :
    t.blockVisit 0 level index = (t.nodeAt level index, index) := by
  rw [blockVisit, blockNode, Nat.zero_div, Nat.zero_add]

section Collect

variable {β : Type} {wanted : Node → Nat → Prop} [∀ node index, Decidable (wanted node index)]
  {part : Node → β}

/-- A visitor that keeps a part of each wanted node, by level. -/
def collectWanted (wanted : Node → Nat → Prop) [∀ node index, Decidable (wanted node index)]
    (part : Node → β) (found : List (Option β)) (node : Node) (index : Nat) : List (Option β) :=
  if wanted node index then found.set node.height (some (part node)) else found

/-- Collecting fills in entries and adds none. -/
theorem length_afterVisits_collectWanted (found : List (Option β)) (visits : List Visit) :
    (afterVisits (collectWanted wanted part) found visits).length = found.length := by
  induction visits generalizing found with
  | nil => rfl
  | cons v visits ih =>
    rw [afterVisits, List.foldl_cons]
    refine (ih _).trans ?_
    unfold collectWanted
    split
    · rw [List.length_set]
    · rfl

/-- An entry keeps its value while no wanted node of its level is visited. -/
theorem getElem?_afterVisits_of_forall_not {level : Nat} (found : List (Option β))
    {visits : List Visit} (hnone : ∀ v ∈ visits, wanted v.1 v.2 → v.1.height ≠ level) :
    (afterVisits (collectWanted wanted part) found visits)[level]? = found[level]? := by
  induction visits generalizing found with
  | nil => rfl
  | cons v visits ih =>
    rw [afterVisits, List.foldl_cons]
    refine (ih _ fun u hu => hnone u (List.mem_cons_of_mem _ hu)).trans ?_
    unfold collectWanted
    split
    · rename_i hwanted
      exact List.getElem?_set_ne (hnone v List.mem_cons_self hwanted)
    · rfl

/-- An entry holds the part that all wanted nodes of its level share, once one of them was
visited. -/
theorem getElem?_afterVisits_of_exists {level : Nat} (value : β) (found : List (Option β))
    {visits : List Visit} (hlevel : level < found.length)
    (hsome : ∃ v ∈ visits, wanted v.1 v.2 ∧ v.1.height = level)
    (hvalue : ∀ v ∈ visits, wanted v.1 v.2 → v.1.height = level → part v.1 = value) :
    (afterVisits (collectWanted wanted part) found visits)[level]? = some (some value) := by
  induction visits generalizing found with
  | nil => simp at hsome
  | cons v visits ih =>
    have htail := fun u hu => hvalue u (List.mem_cons_of_mem v hu)
    rw [afterVisits, List.foldl_cons]
    by_cases hlater : ∃ u ∈ visits, wanted u.1 u.2 ∧ u.1.height = level
    · refine ih _ ?_ hlater htail
      exact Nat.lt_of_lt_of_eq hlevel (length_afterVisits_collectWanted found [v]).symm
    · -- The head is the last wanted node of the level, and its entry is not touched again.
      have hnone : ∀ u ∈ visits, wanted u.1 u.2 → u.1.height ≠ level :=
        fun u hu hwanted hheight => hlater ⟨u, hu, hwanted, hheight⟩
      obtain ⟨u, hu, hwanted, hheight⟩ := hsome
      rcases List.mem_cons.1 hu with rfl | hu
      · refine (getElem?_afterVisits_of_forall_not _ hnone).trans ?_
        rw [collectWanted, if_pos hwanted, hheight, List.getElem?_set_self hlevel,
          hvalue u List.mem_cons_self hwanted hheight]
      · exact absurd hheight (hnone u hu hwanted)

end Collect

/-- The pass over the whole tree finds the node that is wanted on a level. -/
theorem getElem?_afterVisits_pass {β : Type} (part : Node → β) (pick : Nat → Nat) {level : Nat}
    (hlevel : level < t.height) (hpick : pick level < 2 ^ (t.height - level)) :
    (afterVisits (collectWanted (fun node index => node.height < t.height ∧
        index = pick node.height) part) (List.replicate t.height none)
      (t.passVisits 0 (2 ^ t.height)))[level]? =
        some (some (part (t.nodeAt level (pick level)))) := by
  refine getElem?_afterVisits_of_exists _ _ (by rwa [List.length_replicate]) ?_ ?_
  · refine ⟨_, blockVisit_mem_passVisits (Nat.le_of_lt hlevel) hpick, ?_⟩
    rw [blockVisit_zero]
    exact ⟨⟨hlevel, rfl⟩, rfl⟩
  · intro v hv hwanted hheight
    obtain ⟨level', index, -, rfl⟩ := exists_of_mem_passVisits hv
    rw [blockVisit_zero] at hwanted hheight ⊢
    obtain rfl : level' = level := hheight
    have hindex : index = pick level' := hwanted.2
    rw [hindex]

/-- A path without missing nodes is complete. -/
theorem completePath_map_some (level : Nat) (path : List Bytes) :
    completePath level (path.map some) = .ok path := by
  induction path generalizing level with
  | nil => rfl
  | cons node path ih =>
    rw [List.map_cons, completePath, ih]
    rfl

/-- The sibling of a node on a level below the root is a node of the same level. -/
theorem sibling_lt {level height : Nat} (hlevel : level < height) (hleaf : leaf < 2 ^ height) :
    (leaf >>> level) ^^^ 1 < 2 ^ (height - level) := by
  apply Nat.xor_lt_two_pow
  · rw [Nat.shiftRight_eq_div_pow, Nat.div_lt_iff_lt_mul (Nat.two_pow_pos level),
      Nat.pow_sub_mul_pow 2 (Nat.le_of_lt hlevel)]
    exact hleaf
  · exact Nat.one_lt_two_pow (by omega)

/-- The pass over the whole tree finds all siblings along the ancestors of a leaf. -/
theorem afterVisits_siblings (hleaf : leaf < 2 ^ t.height) :
    afterVisits (collectWanted (fun node index => node.height < t.height ∧
        index = (leaf >>> node.height) ^^^ 1) Node.value) (List.replicate t.height none)
      (t.passVisits 0 (2 ^ t.height)) = (t.authPath leaf).map some := by
  refine List.ext_getElem? fun level => ?_
  by_cases hlevel : level < t.height
  · rw [List.getElem?_map, getElem?_authPath hlevel]
    exact getElem?_afterVisits_pass Node.value (fun level => (leaf >>> level) ^^^ 1) hlevel
      (sibling_lt hlevel hleaf)
  · rw [List.getElem?_eq_none, List.getElem?_eq_none]
    · simpa using hlevel
    · rw [length_afterVisits_collectWanted, List.length_replicate]
      omega

/-- The pass over the subtree of some height at the first leaf finds its root and shows the visitor
every node. -/
theorem reduce_zero_eq_ok {σ : Type} (visit : σ → Node → Nat → σ) (total : t.Total) {target : Nat}
    (htarget : target ≤ maxTreeHeight) (seen : σ) :
    t.reduce visit 0 target seen =
      .ok (t.nodeAt target 0, afterVisits visit seen (t.passVisits 0 (2 ^ target))) := by
  have hrange : 0 + 2 ^ target ≤ maxLeafEnd := by
    have hpow : 2 ^ target ≤ 2 ^ maxTreeHeight := Nat.pow_le_pow_right (by decide) htarget
    exact (Nat.zero_add _).symm ▸ hpow.trans (by decide)
  rw [reduce, reduceWith_eq_ok visit total (by decide) htarget (Nat.dvd_zero _) hrange seen,
    blockNode, Nat.zero_div]

/-- The root of the subtree of some height at the first leaf is the first node of that level. -/
theorem subtreeRoot_zero_eq_ok (total : t.Total) {target : Nat} (htarget : target ≤ maxTreeHeight) :
    t.subtreeRoot 0 target = .ok (t.nodeAt target 0) := by
  rw [subtreeRoot, reduce_zero_eq_ok _ total htarget]
  rfl

/-- The pass over the whole tree finds the root and shows the visitor every node. -/
theorem reduce_eq_ok {σ : Type} (visit : σ → Node → Nat → σ) (total : t.Total)
    (hheight : t.height ≤ maxTreeHeight) (seen : σ) :
    t.reduce visit 0 t.height seen =
      .ok (t.nodeAt t.height 0, afterVisits visit seen (t.passVisits 0 (2 ^ t.height))) :=
  reduce_zero_eq_ok visit total hheight seen

/-- The root of the whole tree is its topmost node. -/
theorem subtreeRoot_eq_ok (total : t.Total) (hheight : t.height ≤ maxTreeHeight) :
    t.subtreeRoot 0 t.height = .ok (t.nodeAt t.height 0) :=
  subtreeRoot_zero_eq_ok total hheight

/-- The pass that collects a path finds the root and the siblings along the leaf's ancestors. -/
theorem rootAndPath_eq_ok (total : t.Total) (hheight : t.height ≤ maxTreeHeight)
    (hleaf : leaf < 2 ^ t.height) :
    t.rootAndPath leaf = .ok (t.nodeAt t.height 0, t.authPath leaf) := by
  have hfound := afterVisits_siblings (t := t) hleaf
  rw [rootAndPath, checkTreeHeight, if_pos hheight, ok_bind, reduce_eq_ok _ total hheight, ok_bind]
  change (do return (t.nodeAt t.height 0,
    ← completePath 0 (afterVisits (collectWanted _ _) _ _))) = _
  rw [hfound, completePath_map_some]
  rfl

/-- The sibling of a leaf behind the tree lies behind the tree as well. -/
theorem le_sibling {height : Nat} (hheight : 0 < height) (hleaf : 2 ^ height ≤ leaf) :
    2 ^ height ≤ leaf ^^^ 1 := by
  obtain ⟨half, hhalf⟩ : 2 ∣ 2 ^ height := dvd_pow_self 2 (Nat.ne_of_gt hheight)
  rcases Nat.even_or_odd leaf with heven | hodd
  · rw [Nat.xor_one_of_even heven]
    exact Nat.le_succ_of_le hleaf
  · rw [Nat.xor_one_of_odd hodd]
    have := Nat.odd_iff.1 hodd
    omega

/-- For a leaf behind the tree there is no path: its sibling on the lowest level is not found. -/
theorem rootAndPath_of_le (total : t.Total) (hheight : t.height ≤ maxTreeHeight)
    (hpos : 0 < t.height) (hleaf : 2 ^ t.height ≤ leaf) :
    t.rootAndPath leaf = .error (.authPathUnavailable 0) := by
  -- On higher levels the tree may well have a node with the index that is looked for.
  have hnone : (afterVisits (collectWanted (fun node index => node.height < t.height ∧
      index = (leaf >>> node.height) ^^^ 1) Node.value) (List.replicate t.height none)
        (t.passVisits 0 (2 ^ t.height)))[0]? = some none := by
    rw [getElem?_afterVisits_of_forall_not, List.getElem?_replicate_of_lt hpos]
    intro v hv hwanted hlowest
    obtain ⟨level, index, hlast, rfl⟩ := exists_of_mem_passVisits hv
    rw [blockVisit_zero] at hwanted hlowest
    obtain rfl : level = 0 := hlowest
    obtain rfl : index = leaf ^^^ 1 := hwanted.2
    have hbehind := le_sibling hpos hleaf
    omega
  rw [rootAndPath, checkTreeHeight, if_pos hheight, ok_bind, reduce_eq_ok _ total hheight, ok_bind]
  change (do return (t.nodeAt t.height 0,
    ← completePath 0 (afterVisits (collectWanted _ _) _ _))) = _
  rw [← List.head?_eq_getElem?, List.head?_eq_some_iff] at hnone
  obtain ⟨rest, hfound⟩ := hnone
  rw [hfound]
  rfl

/-- An ancestor and its sibling, in the order of their indices, are the children of the ancestor
above. -/
theorem siblings_in_order {α : Type} (t : MerkleTree) (leaf level : Nat)
    (pair : (left right : Bytes) → α) :
    (if leaf >>> level % 2 = 0 then
        pair (t.nodeValue level (leaf >>> level)) (t.nodeValue level ((leaf >>> level) ^^^ 1))
      else
        pair (t.nodeValue level ((leaf >>> level) ^^^ 1)) (t.nodeValue level (leaf >>> level))) =
      pair (t.nodeValue level (2 * (leaf >>> (level + 1))))
        (t.nodeValue level (2 * (leaf >>> (level + 1)) + 1)) := by
  rw [Nat.shiftRight_succ]
  rcases Nat.mod_two_eq_zero_or_one (leaf >>> level) with heven | hodd
  · have hleft : 2 * (leaf >>> level / 2) = leaf >>> level := by omega
    rw [if_pos heven, Nat.xor_one_of_even (Nat.even_iff.2 heven), hleft]
  · have hleft : 2 * (leaf >>> level / 2) = leaf >>> level - 1 := by omega
    have hright : leaf >>> level - 1 + 1 = leaf >>> level := by omega
    rw [if_neg (by omega), Nat.xor_one_of_odd (Nat.odd_iff.2 hodd), hleft, hright]

/-- One level of the climb joins an ancestor with its sibling, in the order of their indices. -/
theorem join_sibling (total : t.Total) (leaf level : Nat) :
    (if leaf >>> level % 2 = 0 then
        t.join level (leaf >>> (level + 1)) (t.nodeValue level (leaf >>> level))
          (t.nodeValue level ((leaf >>> level) ^^^ 1))
      else
        t.join level (leaf >>> (level + 1)) (t.nodeValue level ((leaf >>> level) ^^^ 1))
          (t.nodeValue level (leaf >>> level))) =
      .ok (t.nodeValue (level + 1) (leaf >>> (level + 1))) :=
  (t.siblings_in_order leaf level (t.join level (leaf >>> (level + 1)))).trans
    (total.join_eq level (leaf >>> (level + 1)))

/-- Climbing along siblings arrives at the ancestor above the last of them. -/
theorem rootFromPath_siblings (total : t.Total) (leaf level count : Nat) :
    rootFromPath t.join leaf level (t.nodeValue level (leaf >>> level))
        ((List.range' level count).map fun j => t.nodeValue j ((leaf >>> j) ^^^ 1)) =
      .ok (t.nodeValue (level + count) (leaf >>> (level + count))) := by
  induction count generalizing level with
  | zero => rfl
  | succ count ih =>
    have hstep := join_sibling total leaf level
    rw [List.range'_succ, List.map_cons, rootFromPath]
    split at hstep <;> rename_i hbit
    · simp only [if_pos hbit, hstep, ok_bind]
      rw [ih (level + 1), Nat.add_assoc, Nat.add_comm 1 count]
    · simp only [if_neg hbit, hstep, ok_bind]
      rw [ih (level + 1), Nat.add_assoc, Nat.add_comm 1 count]

/-- A leaf and its authentication path recompute the root of the tree. -/
theorem rootFromPath_authPath (total : t.Total) (hleaf : leaf < 2 ^ t.height) :
    rootFromPath t.join leaf 0 (t.nodeValue 0 leaf) (t.authPath leaf) =
      .ok (t.nodeValue t.height 0) := by
  have hroot : leaf >>> t.height = 0 := by
    rw [Nat.shiftRight_eq_div_pow, Nat.div_eq_of_lt hleaf]
  have hclimb := rootFromPath_siblings total leaf 0 t.height
  rwa [Nat.zero_add, hroot, ← List.range_eq_range'] at hclimb

end MerkleSignature.MerkleTree
