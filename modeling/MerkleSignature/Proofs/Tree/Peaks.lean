import Mathlib.Data.List.Perm.Subperm
import Mathlib.Data.Nat.EvenOddRec
import MerkleSignature.Proofs.Tree.Nodes

/-!
# The peaks of a partly built subtree

While a subtree is built from left to right, its finished parts are full trees whose sizes are the
powers of two in the number of leaves taken in so far. Their roots are the peaks, and they are what
a node stack holds, the smallest tree on top. Taking in a leaf counts this number up by one: the
leaf is joined with the peaks that the carry runs through.

Positions inside a subtree are counted from its first leaf `start`. The subtree of height `target`
is aligned, so `2 ^ target` divides `start`.
-/

namespace MerkleSignature.MerkleTree

/-- Different numbers below a bound are at most as many as the bound says. -/
theorem length_le_of_pairwise_lt {bound : Nat} {xs : List Nat} (h : xs.Pairwise (· < ·))
    (hbound : ∀ x ∈ xs, x < bound) : xs.length ≤ bound := by
  have hnodup : xs.Nodup := h.imp Nat.ne_of_lt
  have hsub : xs ⊆ List.range bound := fun x hx => List.mem_range.2 (hbound x hx)
  have hle := (List.subperm_of_subset hnodup hsub).length_le
  rwa [List.length_range] at hle

/-- The node with a given level and index, counted from leaf `start` on. -/
def blockNode (t : MerkleTree) (start level index : Nat) : Node :=
  t.nodeAt level (start / 2 ^ level + index)

/-- The peaks of the first `count` nodes of a level, the smallest first. -/
def peaks (t : MerkleTree) (start level count : Nat) : NodeStack :=
  if count = 0 then []
  else if count % 2 = 1 then
    t.blockNode start level (count - 1) :: t.peaks start (level + 1) (count / 2)
  else t.peaks start (level + 1) (count / 2)
termination_by count

variable {t : MerkleTree} {start : Nat}

@[simp] theorem blockNode_height (level index : Nat) :
    (t.blockNode start level index).height = level := rfl

/-- No nodes have no peaks. -/
@[simp] theorem peaks_zero (level : Nat) : t.peaks start level 0 = [] := by
  rw [peaks, if_pos rfl]

/-- The peaks of an even number of nodes stand above their level. -/
theorem peaks_even (level count : Nat) :
    t.peaks start level (2 * count) = t.peaks start (level + 1) count := by
  rcases Nat.eq_zero_or_pos count with rfl | hpos
  · rw [Nat.mul_zero, peaks_zero, peaks_zero]
  · rw [peaks, if_neg (by omega), if_neg (by omega), Nat.mul_div_cancel_left _ (by decide)]

/-- Of an odd number of nodes the last one is a peak. -/
theorem peaks_odd (level count : Nat) :
    t.peaks start level (2 * count + 1) =
      t.blockNode start level (2 * count) :: t.peaks start (level + 1) count := by
  rw [peaks, if_neg (by omega), if_pos (by omega), Nat.add_sub_cancel,
    show (2 * count + 1) / 2 = count by omega]

/-- Some nodes have some peaks. -/
theorem peaks_ne_nil {level count : Nat} (h : 0 < count) : t.peaks start level count ≠ [] := by
  induction count using Nat.evenOddRec generalizing level with
  | h0 => exact absurd h (Nat.lt_irrefl 0)
  | h_even count ih =>
    rw [peaks_even]
    exact ih (by omega)
  | h_odd count ih =>
    rw [peaks_odd]
    exact List.cons_ne_nil _ _

/-- A full subtree has one peak, its root. -/
theorem peaks_two_pow (level height : Nat) :
    t.peaks start level (2 ^ height) = [t.blockNode start (level + height) 0] := by
  induction height generalizing level with
  | zero => exact (peaks_odd level 0).trans (by rw [peaks_zero, Nat.mul_zero, Nat.add_zero])
  | succ height ih =>
    rw [Nat.pow_succ, Nat.mul_comm, peaks_even, ih, Nat.add_assoc, Nat.add_comm 1]

/-- Peaks stand on or above their level. -/
theorem le_height_of_mem_peaks {level count : Nat} {node : Node}
    (h : node ∈ t.peaks start level count) : level ≤ node.height := by
  induction count using Nat.evenOddRec generalizing level with
  | h0 => simp at h
  | h_even count ih =>
    rw [peaks_even] at h
    exact Nat.le_of_succ_le (ih h)
  | h_odd count ih =>
    rw [peaks_odd] at h
    rcases List.mem_cons.1 h with rfl | hrest
    · exact Nat.le_refl _
    · exact Nat.le_of_succ_le (ih hrest)

/-- The peaks of fewer than `2 ^ height` nodes stand less than `height` levels higher. -/
theorem height_lt_of_mem_peaks {level count height : Nat} {node : Node}
    (hcount : count < 2 ^ height) (h : node ∈ t.peaks start level count) :
    node.height < level + height := by
  induction count using Nat.evenOddRec generalizing level height with
  | h0 => simp at h
  | h_even count ih =>
    cases height with
    | zero =>
      rw [show 2 * count = 0 by omega] at h
      simp at h
    | succ height =>
      rw [peaks_even] at h
      have : node.height < level + 1 + height := ih (by rw [Nat.pow_succ] at hcount; omega) h
      omega
  | h_odd count ih =>
    cases height with
    | zero => omega
    | succ height =>
      rw [peaks_odd] at h
      rcases List.mem_cons.1 h with rfl | hrest
      · rw [blockNode_height]
        omega
      · have : node.height < level + 1 + height :=
          ih (by rw [Nat.pow_succ] at hcount; omega) hrest
        omega

/-- From the smallest peak on, each peak stands higher than the ones before. -/
theorem pairwise_height_peaks (level count : Nat) :
    (t.peaks start level count).Pairwise fun a b => a.height < b.height := by
  induction count using Nat.evenOddRec generalizing level with
  | h0 => simp
  | h_even count ih =>
    rw [peaks_even]
    exact ih (level + 1)
  | h_odd count ih =>
    rw [peaks_odd]
    refine List.pairwise_cons.2 ⟨fun node hnode => ?_, ih (level + 1)⟩
    exact le_height_of_mem_peaks hnode

/-- All peaks stand `height` levels higher exactly when the number of nodes is a multiple of
`2 ^ height`. -/
theorem forall_le_height_peaks_iff (level count height : Nat) :
    (∀ node ∈ t.peaks start level count, level + height ≤ node.height) ↔ 2 ^ height ∣ count := by
  induction count using Nat.evenOddRec generalizing level height with
  | h0 => simp
  | h_even count ih =>
    cases height with
    | zero =>
      rw [Nat.pow_zero]
      exact ⟨fun _ => Nat.one_dvd _, fun _ node hnode => le_height_of_mem_peaks hnode⟩
    | succ height =>
      rw [peaks_even, Nat.pow_succ', Nat.mul_dvd_mul_iff_left (by decide), ← ih (level + 1) height,
        Nat.add_assoc, Nat.add_comm 1 height]
  | h_odd count ih =>
    cases height with
    | zero =>
      rw [Nat.pow_zero]
      exact ⟨fun _ => Nat.one_dvd _, fun _ node hnode => le_height_of_mem_peaks hnode⟩
    | succ height =>
      constructor
      · intro h
        have := h _ (by rw [peaks_odd]; exact List.mem_cons_self)
        rw [blockNode_height] at this
        omega
      · intro h
        have := (Nat.dvd_mul_right 2 (2 ^ height)).trans (Nat.pow_succ' ▸ h)
        omega

/-- The index of an aligned subtree's first node is even below the root of the subtree. -/
theorem div_two_pow_of_aligned {level target : Nat} (haligned : 2 ^ target ∣ start)
    (hlevel : level < target) : start / 2 ^ level = 2 * (start / 2 ^ (level + 1)) := by
  obtain ⟨index, rfl⟩ := haligned
  obtain ⟨gap, rfl⟩ := Nat.exists_eq_add_of_lt hlevel
  have hsplit : 2 ^ (level + gap + 1) * index = 2 ^ (level + 1) * (2 ^ gap * index) := by
    rw [← Nat.mul_assoc, ← Nat.pow_add]
    congr 2
    omega
  have hdouble : 2 ^ (level + 1) * (2 ^ gap * index) = 2 ^ level * (2 * (2 ^ gap * index)) := by
    rw [Nat.pow_succ, Nat.mul_assoc]
  rw [hsplit, Nat.mul_div_cancel_left _ (Nat.two_pow_pos _), hdouble,
    Nat.mul_div_cancel_left _ (Nat.two_pow_pos _)]

/-- A right node of a subtree stands below the root of the subtree, and its parent belongs to the
subtree as well. -/
theorem parent_lt {level target count : Nat} (hcount : 2 * count + 1 < 2 ^ (target - level)) :
    level < target ∧ count < 2 ^ (target - (level + 1)) := by
  have hlevel : level < target := by
    by_contra hge
    rw [Nat.sub_eq_zero_of_le (Nat.le_of_not_lt hge)] at hcount
    omega
  refine ⟨hlevel, ?_⟩
  rw [show target - level = target - (level + 1) + 1 by omega, Nat.pow_succ] at hcount
  omega

/-- Above a right node of an aligned subtree stands the parent that this node and its left
neighbour have. -/
theorem parent_of_aligned {level target leaf count : Nat} (haligned : 2 ^ target ∣ start)
    (hlevel : level < target) (hleaf : leaf / 2 ^ level = start / 2 ^ level + (2 * count + 1)) :
    leaf / 2 ^ (level + 1) = start / 2 ^ (level + 1) + count := by
  have hhalf := div_two_pow_of_aligned haligned hlevel
  have hparent : leaf / 2 ^ (level + 1) = leaf / 2 ^ level / 2 := by
    rw [Nat.div_div_eq_div_mul, Nat.pow_succ]
  omega

/-- Two neighbours in an aligned subtree are combined to their parent. The index handed to the
combination is that of the last leaf below them. -/
theorem Total.combine_blockNode (total : t.Total) {level target leaf count : Nat}
    (haligned : 2 ^ target ∣ start) (hlevel : level < target) (htarget : target < wordRange)
    (hleaf : leaf / 2 ^ level = start / 2 ^ level + (2 * count + 1)) :
    t.combine (t.blockNode start level (2 * count)) (t.blockNode start level (2 * count + 1))
      (leaf >>> (level + 1)) = .ok (t.blockNode start (level + 1) count) := by
  have hhalf := div_two_pow_of_aligned haligned hlevel
  have hleft : start / 2 ^ level + 2 * count = 2 * (start / 2 ^ (level + 1) + count) := by omega
  rw [Nat.shiftRight_eq_div_pow, parent_of_aligned haligned hlevel hleaf, blockNode, blockNode,
    ← Nat.add_assoc, hleft]
  exact total.combine_eq _ (by omega)

end MerkleSignature.MerkleTree
