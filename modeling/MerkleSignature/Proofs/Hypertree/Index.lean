import Mathlib.Algebra.BigOperators.Group.Finset.Basic
import MerkleSignature.Hypertree.Index

/-!
# Selected leaves are digits

The leaves that an index selects are its digits in base `2 ^ height`, and the tree that it selects
on a layer is what is left above the digit of that layer. So the layers fit together: what an index
selects on the next layer is what the number of its tree selects on the lowest one, and the index is
the sum of its leaves, each at its place.

An index fits a 64-bit word, and heights, layers and leaves fit 32-bit words. Splitting by
operations on words has to take care where these end: products stop at the largest word, a shift by
64 bits or more leaves nothing, and the mask of a leaf of 64 bits or more has all bits. None of this
shows, as an index has no bits beyond its word.
-/

namespace MerkleSignature.Hypertree

/-- The leaf that an index selects is a leaf of its tree. -/
theorem splitIndex_leaf_lt (index height layer : Nat) :
    (splitIndex index height layer).2 < 2 ^ height :=
  Nat.lt_of_le_of_lt (Nat.mod_le _ _) (Nat.mod_lt _ (Nat.two_pow_pos height))

/-- What an index selects on the next layer is what the number of its tree selects on the lowest
one. -/
theorem splitIndex_succ (index height layer : Nat) :
    splitIndex index height (layer + 1) =
      splitIndex (splitIndex index height layer).1 height 0 := by
  simp only [splitIndex, Nat.succ_mul (layer + 1), Nat.zero_add, Nat.one_mul, Nat.zero_mul,
    Nat.shiftRight_zero, Nat.shiftRight_add]

section Words

variable {height : Nat} (hheight : height ≤ leafBits)
include hheight

/-- A leaf whose bits fit its word is a digit of the index. -/
theorem splitIndex_leaf_eq (index layer : Nat) :
    (splitIndex index height layer).2 = index >>> (layer * height) % 2 ^ height := by
  apply Nat.mod_eq_of_lt
  exact Nat.lt_of_lt_of_le (Nat.mod_lt _ (Nat.two_pow_pos height))
    (Nat.pow_le_pow_right (by decide) hheight)

/-- The tree and the leaf that an index selects on a layer make up the number of the tree selected
on the layer below. -/
theorem splitIndex_join (index layer : Nat) :
    (splitIndex index height layer).1 * 2 ^ height + (splitIndex index height layer).2 =
      index >>> (layer * height) := by
  rw [splitIndex_leaf_eq hheight, splitIndex, Nat.succ_mul, Nat.shiftRight_add,
    Nat.shiftRight_eq_div_pow _ height]
  exact Nat.div_add_mod' _ _

/-- The leaf that signs a tree is the last digit of the number of that tree. -/
theorem splitIndex_leaf_above (index layer : Nat) :
    (splitIndex index height (layer + 1)).2 = (splitIndex index height layer).1 % 2 ^ height :=
  splitIndex_leaf_eq hheight index (layer + 1)

/-- The leaves that an index selects on some layers, each at its place, and what is left above them
make up the index. -/
theorem sum_leaves_add (index layers : Nat) :
    ∑ layer ∈ Finset.range layers, (splitIndex index height layer).2 * 2 ^ (layer * height) +
      index >>> (layers * height) * 2 ^ (layers * height) = index := by
  induction layers with
  | zero => simp
  | succ layers ih =>
    have hpower : 2 ^ height * 2 ^ (layers * height) = 2 ^ ((layers + 1) * height) := by
      rw [← Nat.pow_add, Nat.succ_mul, Nat.add_comm]
    have hplace : (splitIndex index height layers).2 * 2 ^ (layers * height) +
        index >>> ((layers + 1) * height) * 2 ^ ((layers + 1) * height) =
          index >>> (layers * height) * 2 ^ (layers * height) := by
      rw [← splitIndex_join hheight index layers,
        Nat.add_mul ((splitIndex index height layers).1 * _), Nat.mul_assoc, hpower, Nat.add_comm]
      rfl
    rw [Finset.sum_range_succ, Nat.add_assoc, hplace, ih]

end Words

/-- A number stopped at the largest 32-bit word. -/
def stopped (x : Nat) : UInt32 := .ofNat (min x (2 ^ 32 - 1))

/-- Shift a double word to the right; by 64 bits or more nothing is left. -/
def shiftedOut (x : UInt64) (count : UInt32) : UInt64 :=
  if count < 64 then x >>> count.toUInt64 else 0

/-- The mask of a number of low bits; of 64 bits or more it has all bits. -/
def lowBits (count : UInt32) : UInt64 :=
  if count < 64 then (1 <<< count.toUInt64) - 1 else 0 - 1

/-- The tree and the leaf that an index selects on a layer of trees of the given height, computed in
words. -/
def splitWord (index : UInt64) (height layer : UInt32) : UInt64 × UInt32 :=
  (shiftedOut index (stopped ((stopped (layer.toNat + 1)).toNat * height.toNat)),
    (shiftedOut index (stopped (layer.toNat * height.toNat)) &&& lowBits height).toUInt32)

theorem toNat_stopped (x : Nat) : (stopped x).toNat = min x (2 ^ 32 - 1) :=
  UInt32.toNat_ofNat_of_lt' (Nat.lt_of_le_of_lt (Nat.min_le_right _ _) (by decide))

/-- A number has no bits beyond its word. -/
theorem shiftRight_eq_zero {x count : Nat} (hx : x < 2 ^ 64) (hcount : 64 ≤ count) :
    x >>> count = 0 := by
  rw [Nat.shiftRight_eq_div_pow]
  exact Nat.div_eq_of_lt (Nat.lt_of_lt_of_le hx (Nat.pow_le_pow_right (by decide) hcount))

/-- Shifting out is shifting. -/
theorem toNat_shiftedOut (x : UInt64) (count : UInt32) :
    (shiftedOut x count).toNat = x.toNat >>> count.toNat := by
  unfold shiftedOut
  split
  next hcount =>
    have hsmall : count.toNat < 64 := UInt32.lt_iff_toNat_lt.1 hcount
    rw [UInt64.toNat_shiftRight, UInt32.toNat_toUInt64, Nat.mod_eq_of_lt hsmall]
  next hcount =>
    have hlarge : 64 ≤ count.toNat := Nat.not_lt.1 fun h => hcount (UInt32.lt_iff_toNat_lt.2 h)
    exact (shiftRight_eq_zero x.toNat_lt hlarge).symm

/-- A count of bits may be stopped at the largest word. -/
theorem shiftRight_stopped (x : UInt64) (count : Nat) :
    x.toNat >>> (stopped count).toNat = x.toNat >>> count := by
  rw [toNat_stopped]
  rcases Nat.le_total count (2 ^ 32 - 1) with hsmall | hlarge
  · rw [Nat.min_eq_left hsmall]
  · rw [Nat.min_eq_right hlarge, shiftRight_eq_zero x.toNat_lt (by decide),
      shiftRight_eq_zero x.toNat_lt (Nat.le_trans (by decide) hlarge)]

/-- A layer may be stopped at the largest word before it is multiplied by a height. -/
theorem shiftRight_stopped_mul (x : UInt64) (count height : Nat) :
    x.toNat >>> ((stopped count).toNat * height) = x.toNat >>> (count * height) := by
  rw [toNat_stopped]
  rcases Nat.le_total count (2 ^ 32 - 1) with hsmall | hlarge
  · rw [Nat.min_eq_left hsmall]
  · rw [Nat.min_eq_right hlarge]
    rcases Nat.eq_zero_or_pos height with rfl | hpos
    · rfl
    · have hstopped : 64 ≤ (2 ^ 32 - 1) * height :=
        Nat.le_trans (by decide) (Nat.le_mul_of_pos_right _ hpos)
      rw [shiftRight_eq_zero x.toNat_lt hstopped, shiftRight_eq_zero x.toNat_lt
        (Nat.le_trans hstopped (Nat.mul_le_mul_right _ hlarge))]

/-- Masking leaves the remainder. -/
theorem toNat_and_lowBits (x : UInt64) (count : UInt32) :
    (x &&& lowBits count).toNat = x.toNat % 2 ^ count.toNat := by
  rw [UInt64.toNat_and]
  unfold lowBits
  split
  next hcount =>
    have hsmall : count.toNat < 64 := UInt32.lt_iff_toNat_lt.1 hcount
    have hpower : (1 <<< count.toUInt64 : UInt64).toNat = 2 ^ count.toNat := by
      rw [UInt64.toNat_shiftLeft, UInt32.toNat_toUInt64, Nat.mod_eq_of_lt hsmall, UInt64.toNat_one,
        Nat.shiftLeft_eq, Nat.one_mul]
      exact Nat.mod_eq_of_lt (Nat.pow_lt_pow_right (by decide) hsmall)
    have hone : (1 : UInt64) ≤ 1 <<< count.toUInt64 := by
      rw [UInt64.le_iff_toNat_le, hpower, UInt64.toNat_one]
      exact Nat.two_pow_pos _
    rw [UInt64.toNat_sub_of_le _ _ hone, hpower, UInt64.toNat_one, Nat.and_two_pow_sub_one_eq_mod]
  next hcount =>
    have hlarge : 64 ≤ count.toNat := Nat.not_lt.1 fun h => hcount (UInt32.lt_iff_toNat_lt.2 h)
    have hall : (0 - 1 : UInt64).toNat = 2 ^ 64 - 1 := rfl
    rw [hall, Nat.and_two_pow_sub_one_eq_mod, Nat.mod_eq_of_lt x.toNat_lt, Nat.mod_eq_of_lt]
    exact Nat.lt_of_lt_of_le x.toNat_lt (Nat.pow_le_pow_right (by decide) hlarge)

/-- Splitting in words is splitting. -/
theorem toNat_splitWord (index : UInt64) (height layer : UInt32) :
    ((splitWord index height layer).1.toNat, (splitWord index height layer).2.toNat) =
      splitIndex index.toNat height.toNat layer.toNat := by
  apply Prod.ext
  · dsimp only [splitWord, splitIndex]
    rw [toNat_shiftedOut, shiftRight_stopped, shiftRight_stopped_mul]
  · dsimp only [splitWord, splitIndex]
    rw [UInt64.toNat_toUInt32, toNat_and_lowBits, toNat_shiftedOut, shiftRight_stopped]
    rfl

/-- Numbers that fit their words are split in words. -/
theorem toNat_splitWord_ofNat {index height layer : Nat} (hindex : index < 2 ^ 64)
    (hheight : height < 2 ^ 32) (hlayer : layer < 2 ^ 32) :
    (splitWord (.ofNat index) (.ofNat height) (.ofNat layer)).1.toNat =
        (splitIndex index height layer).1 ∧
      (splitWord (.ofNat index) (.ofNat height) (.ofNat layer)).2.toNat =
        (splitIndex index height layer).2 := by
  have hsplit := toNat_splitWord (.ofNat index) (.ofNat height) (.ofNat layer)
  rw [UInt64.toNat_ofNat_of_lt' hindex, UInt32.toNat_ofNat_of_lt' hheight,
    UInt32.toNat_ofNat_of_lt' hlayer] at hsplit
  exact Prod.mk.inj hsplit

/-- What words select is told by the numbers that they hold. -/
theorem splitWord_eq_of_splitIndex_eq {index index' : UInt64} {height height' layer layer' : UInt32}
    (h : splitIndex index.toNat height.toNat layer.toNat =
      splitIndex index'.toNat height'.toNat layer'.toNat) :
    splitWord index height layer = splitWord index' height' layer' := by
  rw [← toNat_splitWord, ← toNat_splitWord] at h
  obtain ⟨htree, hleaf⟩ := Prod.mk.inj h
  exact Prod.ext (UInt64.toNat_inj.1 htree) (UInt32.toNat_inj.1 hleaf)

/-- A layer that is not the last one of its word has a layer above it. -/
theorem toNat_succ_layer {layer : UInt32} (hlayer : layer.toNat < 2 ^ 32 - 1) :
    (layer + 1).toNat = layer.toNat + 1 := by
  rw [UInt32.toNat_add, UInt32.toNat_one, Nat.mod_eq_of_lt (by omega)]

/-- Splitting is coherent across layers. Splitting in words is splitting, for all words. What an
index selects on the next layer is what the number of its tree selects on the lowest one, in numbers
and in words, and a leaf whose bits fit its word is the last digit of the number of the tree that it
signs. An index below the capacity of some layers selects leaves of its trees and the only tree of
the highest layer, and is the sum of the leaves, each at its place. -/
theorem splitIndex_coherent :
    (∀ (index : UInt64) (height layer : UInt32),
      ((splitWord index height layer).1.toNat, (splitWord index height layer).2.toNat) =
        splitIndex index.toNat height.toNat layer.toNat) ∧
    (∀ index height layer : Nat,
      splitIndex index height (layer + 1) =
        splitIndex (splitIndex index height layer).1 height 0 ∧
      (height ≤ 32 →
        (splitIndex index height (layer + 1)).2 = (splitIndex index height layer).1 % 2 ^ height)) ∧
    (∀ (index : UInt64) (height layer : UInt32), layer.toNat < 2 ^ 32 - 1 →
      splitWord index height (layer + 1) = splitWord (splitWord index height layer).1 height 0) ∧
    ∀ index height layers : Nat, height ≤ 32 → index < 2 ^ (height * layers) →
      (∀ layer, (splitIndex index height layer).2 < 2 ^ height) ∧
      (splitIndex index height (layers - 1)).1 = 0 ∧
      index = ∑ layer ∈ Finset.range layers,
        (splitIndex index height layer).2 * 2 ^ (layer * height) := by
  refine ⟨toNat_splitWord, fun index height layer => ?_, fun index height layer hlayer => ?_,
    fun index height layers hheight hindex => ?_⟩
  · exact ⟨splitIndex_succ index height layer, fun h => splitIndex_leaf_above h index layer⟩
  · apply splitWord_eq_of_splitIndex_eq
    obtain ⟨htree, -⟩ := Prod.mk.inj (toNat_splitWord index height layer)
    rw [toNat_succ_layer hlayer, splitIndex_succ, htree]
    rfl
  · have habove : ∀ count, layers ≤ count → index >>> (count * height) = 0 := by
      intro count hcount
      rw [Nat.shiftRight_eq_div_pow]
      refine Nat.div_eq_of_lt (Nat.lt_of_lt_of_le hindex (Nat.pow_le_pow_right (by decide) ?_))
      rw [Nat.mul_comm]
      exact Nat.mul_le_mul_right height hcount
    refine ⟨splitIndex_leaf_lt index height, habove _ (by omega), ?_⟩
    have hsum := sum_leaves_add hheight index layers
    rw [habove layers (Nat.le_refl _), Nat.zero_mul, Nat.add_zero] at hsum
    exact hsum.symm

/-- An index of three layers of trees of height 20 with a different leaf on each layer. -/
theorem splitIndex_coherent_threeLayers :
    (1 : UInt32).toNat < 2 ^ 32 - 1 ∧ 20 ≤ 32 ∧ 0x123456789ABCDEF < 2 ^ (20 * 3) ∧
      splitWord 0x123456789ABCDEF 20 (1 + 1) =
        splitWord (splitWord 0x123456789ABCDEF 20 1).1 20 0 ∧
      (splitIndex 0x123456789ABCDEF 20 (1 + 1)).2 =
        (splitIndex 0x123456789ABCDEF 20 1).1 % 2 ^ 20 ∧
      (splitIndex 0x123456789ABCDEF 20 (3 - 1)).1 = 0 ∧
      0x123456789ABCDEF = ∑ layer ∈ Finset.range 3,
        (splitIndex 0x123456789ABCDEF 20 layer).2 * 2 ^ (layer * 20) := by
  obtain ⟨-, hlayers, hwords, hdigits⟩ := splitIndex_coherent
  have hlayer : (1 : UInt32).toNat < 2 ^ 32 - 1 := by decide
  have hindex : 0x123456789ABCDEF < 2 ^ (20 * 3) := by decide
  obtain ⟨-, htop, hsum⟩ := hdigits 0x123456789ABCDEF 20 3 (by decide) hindex
  exact ⟨hlayer, by decide, hindex, hwords _ 20 1 hlayer, (hlayers _ 20 1).2 (by decide), htop,
    hsum⟩

/-- Shifts that pass the word, a product that passes it and a leaf that is cut to it. -/
example : splitWord (0 - 1) 20 2 = (15, 2 ^ 20 - 1) ∧ splitWord 5 (0 - 1) (0 - 1) = (0, 0) ∧
    splitWord (0 - 1) 64 0 = (0, 0 - 1) := by decide

end MerkleSignature.Hypertree
