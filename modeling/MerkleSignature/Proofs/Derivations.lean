import MerkleSignature.KeyTree
import MerkleSignature.Proofs.LTree.Recorded
import MerkleSignature.Proofs.Tree.RecordedPass
import MerkleSignature.Proofs.Winternitz.Recorded

/-!
# Derived keys and masks on record

Every key and every mask of the scheme is derived from the public seed and an address. Here the
computations that build a tree note the address of each derivation, in the order in which they
derive. What is derived from the secret seed, or from the seed of a leaf, is not noted: the elements
of a secret key are derived under another key.

Without the notes each computation is the one of the library.
-/

namespace MerkleSignature

namespace Digest

variable (d : Digest)

/-- Derive a key or a mask from the public seed, and note the address. -/
def noteDerivation (publicSeed : Bytes) (address : Address) : Recorded Address Bytes := do
  tell [address]
  d.prfAddress publicSeed address

/-- Join two nodes, with notes of the derivations. -/
def noteJoin (left right publicSeed : Bytes) (address : Address) : Recorded Address Bytes := do
  checkLength "left node" left d.size
  checkLength "right node" right d.size
  let key ← d.noteDerivation publicSeed (address.withKeyAndMask 0)
  let leftMask ← d.noteDerivation publicSeed (address.withKeyAndMask 1)
  let rightMask ← d.noteDerivation publicSeed (address.withKeyAndMask 2)
  d.nodeHash key (Bytes.xor left leftMask ++ Bytes.xor right rightMask)

/-- Joining nodes of the L-tree of a leaf, with notes of the derivations. -/
def noteLTreeJoin (publicSeed : Bytes) (position : TreePosition) (leaf : Nat) :
    RecordedJoin Address := fun height index left right =>
  d.noteJoin left right publicSeed (position.lTreeAddress leaf height index)

/-- Joining nodes of a hash tree, with notes of the derivations. -/
def noteHashTreeJoin (publicSeed : Bytes) (position : TreePosition) : RecordedJoin Address :=
  fun height index left right =>
    d.noteJoin left right publicSeed (position.hashTreeAddress height index)

@[simp] theorem value_noteDerivation (publicSeed : Bytes) (address : Address) :
    (d.noteDerivation publicSeed address).value = d.prfAddress publicSeed address := by
  simp [noteDerivation]

@[simp] theorem value_noteJoin (left right publicSeed : Bytes) (address : Address) :
    (d.noteJoin left right publicSeed address).value =
      d.joinNodes left right publicSeed address := by
  simp [noteJoin, joinNodes]

@[simp] theorem value_noteLTreeJoin (publicSeed : Bytes) (position : TreePosition) (leaf : Nat) :
    RecordedJoin.value (d.noteLTreeJoin publicSeed position leaf) =
      d.lTreeJoin publicSeed position leaf := by
  funext height index left right
  exact d.value_noteJoin ..

@[simp] theorem value_noteHashTreeJoin (publicSeed : Bytes) (position : TreePosition) :
    RecordedJoin.value (d.noteHashTreeJoin publicSeed position) =
      d.hashTreeJoin publicSeed position := by
  funext height index left right
  exact d.value_noteJoin ..

end Digest

namespace Winternitz.OneTime

variable (s : OneTime) (position : TreePosition) (leaf : Nat)

/-- The element after position `step` of a chain, with notes of the derivations. -/
def noteNext (chain step : Nat) (element : Bytes) : Recorded Address Bytes := do
  let address := position.oneTimeAddress leaf chain step
  let key ← s.digest.noteDerivation s.publicSeed address
  let mask ← s.digest.noteDerivation s.publicSeed (address.withKeyAndMask 1)
  s.digest.chainHash key (Bytes.xor element mask)

/-- The public key of a leaf, with notes of the derivations. -/
def notePublicKey (secretSeed : Bytes) : Recorded Address Bytes := do
  let elements ← s.secretElements secretSeed position leaf
  let ends ← Recorded.forEach
    (fun (element, i) => s.recordChain (s.noteNext position leaf i) element 0 (s.params.w - 1))
    elements.zipIdx
  return ends.flatten

theorem value_noteNext (chain step : Nat) (element : Bytes) :
    (s.noteNext position leaf chain step element).value =
      s.next position leaf chain step element := by
  simp [noteNext, next]

@[simp] theorem value_notePublicKey (secretSeed : Bytes) :
    (s.notePublicKey position leaf secretSeed).value =
      s.publicKey secretSeed position leaf := by
  simp only [notePublicKey, publicKey, Recorded.value_bind, Recorded.value_lift,
    Recorded.value_forEach, value_recordChain (s.value_noteNext position leaf _)]
  rfl

end Winternitz.OneTime

namespace KeyTree

variable (k : KeyTree)

/-- The value of a leaf, with notes of the derivations. -/
def noteLeaf (index : Nat) : Recorded Address Bytes := do
  let publicKey ← k.oneTime.notePublicKey k.position index k.secretSeed
  LTree.recordRoot k.digest (k.digest.noteLTreeJoin k.publicSeed k.position index) publicKey

/-- The tree as a Merkle tree whose computations note their derivations. -/
def notedTree : RecordedTree Address where
  height := k.height
  leaf := k.noteLeaf
  join := k.digest.noteHashTreeJoin k.publicSeed k.position
  onStack _ := []

/-- Nothing is noted of the stack. -/
theorem onStack_notedTree (stack : NodeStack) : k.notedTree.onStack stack = [] := rfl

/-- Without the notes a leaf has its value. -/
theorem value_noteLeaf (index : Nat) : (k.noteLeaf index).value = k.leaf index := by
  rw [noteLeaf, leaf, Recorded.value_bind, Winternitz.OneTime.value_notePublicKey]
  exact bind_congr fun publicKey =>
    LTree.value_recordRoot (k.digest.value_noteLTreeJoin ..) publicKey

/-- The tree without its notes is the tree. -/
@[simp] theorem value_notedTree : k.notedTree.value = k.tree := by
  unfold RecordedTree.value notedTree tree
  simp only [value_noteLeaf, Digest.value_noteHashTreeJoin]

/-- The roots of the subtrees of height `height` at the first leaves of the trees at some positions,
one after the other, with notes of the derivations. -/
def noteRoots (height : Nat) (positions : List TreePosition) : Recorded Address (List Node) :=
  Recorded.forEach
    (fun position => { k with position : KeyTree }.notedTree.subtreeRoot 0 height) positions

/-- Without the notes the roots are computed one after the other. -/
theorem value_noteRoots (height : Nat) (positions : List TreePosition) :
    (k.noteRoots height positions).value =
      positions.mapM fun position => { k with position : KeyTree }.tree.subtreeRoot 0 height := by
  simp only [noteRoots, Recorded.value_forEach, RecordedTree.value_subtreeRoot, value_notedTree]

end KeyTree

end MerkleSignature
