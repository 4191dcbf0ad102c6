import MerkleSignature.Hypertree.PublicKey
import MerkleSignature.Proofs.Bounded.LTree
import MerkleSignature.Proofs.Bounded.OneTime
import MerkleSignature.Proofs.Hypertree.Index
import MerkleSignature.Proofs.Winternitz.Extraction
import MerkleSignature.SingleTree.PublicKey

/-!
# Verification within bounds

On the way from a leaf to the root the index of the leaf is shifted by the level, so a path must not
be longer than the index has bits. A verifier compares the length of every path with the height of
its key before it looks at the path, and no key has trees of more than 20 levels. Everything else
that a signature brings along is checked where it is used, so verification stays within its bounds
for all keys and all signatures, and where a check refuses the signature is invalid.
-/

namespace MerkleSignature

open Bounded

/-- The answer of a check: what is refused is invalid. -/
def Bounded.orFalse (x : Bounded Bool) : Except Fault Bool := do
  match ← x.run with
  | .ok valid => return valid
  | .error _ => return false

/-- Joining nodes of a hash tree within bounds. -/
def Digest.boundedHashTreeJoin (d : Digest) (publicSeed : Bytes) (position : TreePosition) :
    BoundedJoin :=
  fun height index left right =>
    d.boundedJoinNodes left right publicSeed (position.hashTreeAddress height index)

/-- Recompute the root from the node above `leaf` at `level` and the rest of the path. -/
def boundedRootFromPath (join : BoundedJoin) (leaf : Nat) :
    (level : Nat) → Bytes → List Bytes → Bounded Bytes
  | _, node, [] => pure node
  | level, node, sibling :: rest => do
    let index ← shiftRight 32 leaf (level + 1)
    let side ← shiftRight 32 leaf level
    let parent ←
      if side % 2 = 0 then join level index node sibling else join level index sibling node
    boundedRootFromPath join leaf (level + 1) parent rest

/-- A path that is shorter than the word of its leaf stays within its bounds. -/
theorem boundedRootFromPath_eq {join : Join} {boundedJoin : BoundedJoin}
    (hjoin : ∀ height index left right,
      boundedJoin height index left right = liftM (join height index left right))
    (leaf : Nat) {level : Nat} {path : List Bytes} (hpath : level + path.length < 32)
    (node : Bytes) :
    boundedRootFromPath boundedJoin leaf level node path =
      liftM (rootFromPath join leaf level node path) := by
  induction path generalizing level node with
  | nil => rfl
  | cons sibling rest ih =>
    rw [List.length_cons] at hpath
    rw [boundedRootFromPath, rootFromPath, shiftRight_eq (by omega), pure_bind,
      shiftRight_eq (by omega), pure_bind, hjoin, hjoin]
    dsimp only
    by_cases hside : leaf >>> level % 2 = 0
    · rw [if_pos hside, if_pos hside]
      exact lift_bind_eq fun parent _ => ih (by omega) parent
    · rw [if_neg hside, if_neg hside]
      exact lift_bind_eq fun parent _ => ih (by omega) parent

/-- The last node of a path of 32 nodes is beyond the word of its leaf. -/
example : (boundedRootFromPath (fun _ _ _ _ => pure []) 0 31 [] [[]]).run = .error .shift := rfl

namespace ReducedSignature

/-- The root of the tree that the signature of a block by a leaf commits to. -/
def boundedRecoverRoot (r : ReducedSignature) (s : Winternitz.OneTime) (block : Bytes)
    (position : TreePosition) (leaf : Nat) : Bounded Bytes := do
  let publicKey ← s.boundedRecover r.oneTime block position leaf
  let value ← LTree.boundedRoot s.digest publicKey s.publicSeed position leaf
  boundedRootFromPath (s.digest.boundedHashTreeJoin s.publicSeed position) leaf 0 value r.path

/-- A share with a path that is shorter than the word of its leaf stays within its bounds. -/
theorem boundedRecoverRoot_eq {r : ReducedSignature} (hpath : r.path.length < 32)
    (s : Winternitz.OneTime) (block : Bytes) (position : TreePosition) (leaf : Nat) :
    r.boundedRecoverRoot s block position leaf =
      liftM (r.recoverRoot s block position leaf) := by
  have hshort : s.params.length * s.digest.size < 2 ^ 32 := by
    change (Winternitz.Params.ofDigest s.digest s.width).length * _ < _
    cases s.digest <;> cases s.width <;> decide
  rw [boundedRecoverRoot, Winternitz.OneTime.boundedRecover_eq]
  refine lift_bind_eq fun publicKey hpublicKey => ?_
  rw [← Winternitz.OneTime.length_of_recover hpublicKey] at hshort
  rw [LTree.boundedRoot_eq hshort]
  refine lift_bind_eq fun value _ => ?_
  exact boundedRootFromPath_eq (fun _ _ left right =>
    Digest.boundedJoinNodes_eq left right s.publicSeed _) leaf (by omega) value

end ReducedSignature

namespace SingleTree.PublicKey

/-- Check a signature of a message. -/
def boundedCheck (key : PublicKey) (message : Bytes) (s : Signature) : Bounded Bool := do
  let leaves ← shiftLeft 64 1 key.params.height
  if s.index < leaves ∧ s.reduced.path.length = key.params.height then
    let digest := key.params.digest
    let block ← digest.boundedMessageDigest s.randomness key.root s.index message
    let root ←
      s.reduced.boundedRecoverRoot ⟨digest, key.params.width, key.publicSeed⟩ block {} s.index
    return root == key.root
  else return false

/-- Whether a signature of a message is valid. -/
def boundedVerify (key : PublicKey) (message : Bytes) (s : Signature) : Except Fault Bool :=
  (key.boundedCheck message s).orFalse

/-- Verification stays within its bounds, whatever the key, the message and the signature. -/
theorem boundedVerify_eq (key : PublicKey) (message : Bytes) (s : Signature) :
    key.boundedVerify message s = .ok (key.verify message s) := by
  have hheight := key.params.height_mem.2
  have hleaves : 1 * 2 ^ key.params.height < 2 ^ 64 := by
    rw [Nat.one_mul]
    exact Nat.pow_lt_pow_right (by decide) (Nat.lt_of_le_of_lt hheight (by decide))
  rw [boundedVerify, boundedCheck, shiftLeft_eq (Nat.lt_of_le_of_lt hheight (by decide)) hleaves,
    pure_bind, Nat.one_mul, verify, Params.leaves]
  split
  next hguard =>
    have hpath : s.reduced.path.length < 32 := by
      rw [hguard.2]
      exact Nat.lt_of_le_of_lt hheight (by decide)
    have hroot : (key.params.digest.boundedMessageDigest s.randomness key.root s.index message >>=
        fun block => s.reduced.boundedRecoverRoot
          ⟨key.params.digest, key.params.width, key.publicSeed⟩ block {} s.index) =
        liftM (key.recoverRoot message s) := by
      rw [Digest.boundedMessageDigest_eq]
      exact lift_bind_eq fun block _ => ReducedSignature.boundedRecoverRoot_eq hpath ..
    dsimp only
    rw [← bind_assoc, hroot]
    cases key.recoverRoot message s <;> rfl
  next => rfl

end SingleTree.PublicKey

namespace Hypertree

/-- A hypertree has no more layers than levels. -/
theorem Params.layers_le (p : Params) : p.layers ≤ maxTotalHeight :=
  Nat.le_trans (Nat.le_mul_of_pos_left p.layers (Nat.lt_of_lt_of_le (by decide) p.minKeyHeight_le))
    p.totalHeight_le

namespace PublicKey

/-- The root that the reduced signatures from `layer` on commit to, if the first of them signs a
given block. -/
def boundedRecoverLayers (s : Winternitz.OneTime) (height index : Nat) :
    (layer : Nat) → (block : Bytes) → List ReducedSignature → Bounded Bytes
  | _, block, [] => pure block
  | layer, block, reduced :: rest => do
    let above ← addWord layer 1
    let (tree, leaf) := splitWord (.ofNat index) (.ofNat height) (.ofNat layer)
    let root ← reduced.boundedRecoverRoot s block { layer := .ofNat layer, tree } leaf.toNat
    boundedRecoverLayers s height index above root rest

/-- Check a signature of a message. -/
def boundedCheck (key : PublicKey) (message : Bytes) (s : Signature) : Bounded Bool := do
  let height ← divide key.params.totalHeight key.params.layers
  let capacity ← shiftLeft 64 1 key.params.totalHeight
  if s.params = key.params ∧ s.index < capacity ∧ s.layers.length = key.params.layers ∧
      ∀ reduced ∈ s.layers, reduced.path.length = height then
    let digest := key.params.digest
    let block ← digest.boundedMessageDigest s.randomness key.root s.index message
    let root ← boundedRecoverLayers ⟨digest, key.params.width, key.publicSeed⟩ height s.index 0
      block s.layers
    return root == key.root
  else return false

/-- Whether a signature of a message is valid. -/
def boundedVerify (key : PublicKey) (message : Bytes) (s : Signature) : Except Fault Bool :=
  (key.boundedCheck message s).orFalse

/-- The layers stay within their bounds, if the numbers of the layers and the index fit words. -/
theorem boundedRecoverLayers_eq (s : Winternitz.OneTime) {height index layer : Nat}
    {shares : List ReducedSignature} (hheight : height < 32) (hindex : index < 2 ^ 64)
    (hlayer : layer + shares.length < 2 ^ 32)
    (hpaths : ∀ reduced ∈ shares, reduced.path.length = height) (block : Bytes) :
    boundedRecoverLayers s height index layer block shares =
      liftM (recoverLayers s height index layer block shares) := by
  induction shares generalizing layer block with
  | nil => rfl
  | cons reduced rest ih =>
    rw [List.length_cons] at hlayer
    obtain ⟨htree, hleaf⟩ := toNat_splitWord_ofNat hindex
      (Nat.lt_trans hheight (by decide)) (show layer < 2 ^ 32 by omega)
    have hposition : TreePosition.mk (.ofNat layer)
        (splitWord (.ofNat index) (.ofNat height) (.ofNat layer)).1 =
          positionOf layer (splitIndex index height layer).1 := by
      rw [positionOf, ← htree, UInt64.ofNat_toNat]
    have hpath : reduced.path.length < 32 := hpaths reduced List.mem_cons_self ▸ hheight
    rw [boundedRecoverLayers, addWord_eq (by omega), pure_bind]
    dsimp only
    rw [hposition, hleaf, ReducedSignature.boundedRecoverRoot_eq hpath]
    exact lift_bind_eq fun root _ => ih (by omega)
      (fun r hr => hpaths r (List.mem_cons_of_mem reduced hr)) root

/-- Verification stays within its bounds, whatever the key, the message and the signature. -/
theorem boundedVerify_eq (key : PublicKey) (message : Bytes) (s : Signature) :
    key.boundedVerify message s = .ok (key.verify message s) := by
  have htotal : key.params.totalHeight < 64 :=
    Nat.lt_of_le_of_lt key.params.totalHeight_le (by decide)
  have hcapacity : 1 * 2 ^ key.params.totalHeight < 2 ^ 64 := by
    rw [Nat.one_mul]
    exact Nat.pow_lt_pow_right (by decide) htotal
  have hheight : key.params.totalHeight / key.params.layers = key.params.treeHeight :=
    Nat.mul_div_cancel _ key.params.layers_pos
  rw [boundedVerify, boundedCheck, divide_eq (Nat.ne_of_gt key.params.layers_pos), pure_bind,
    hheight, shiftLeft_eq htotal hcapacity, pure_bind, Nat.one_mul, verify, Params.capacity]
  split
  next hguard =>
    obtain ⟨-, hindex, hlayers, hpaths⟩ := hguard
    have hroot : (key.params.digest.boundedMessageDigest s.randomness key.root s.index message >>=
        fun block => boundedRecoverLayers
          ⟨key.params.digest, key.params.width, key.publicSeed⟩ key.params.treeHeight s.index 0
          block s.layers) = liftM (key.recoverRoot message s) := by
      rw [Digest.boundedMessageDigest_eq]
      refine lift_bind_eq fun block _ => boundedRecoverLayers_eq _ ?_ ?_ ?_ hpaths block
      · exact Nat.lt_of_le_of_lt key.params.treeHeight_le (by decide)
      · omega
      · rw [hlayers, Nat.zero_add]
        exact Nat.lt_of_le_of_lt key.params.layers_le (by decide)
    dsimp only
    rw [← bind_assoc, hroot]
    cases key.recoverRoot message s <;> rfl
  next => rfl

end PublicKey

end Hypertree

end MerkleSignature
