import MerkleSignature.Hypertree.PrivateKey
import MerkleSignature.Proofs.Hypertree.Index
import MerkleSignature.Proofs.KeyTree

/-!
# Stateless hypertree signatures

A signature is determined by the parameters and the seeds of a key, an index and a message. The
stateless signer computes it from these alone: on every layer it rebuilds the tree that the index
selects, signs with the selected leaf and takes the authentication path from a pass over the whole
tree; the root of the tree is the block that the next layer signs.

It never fails, and what it computes is accepted by the verifier, which climbs through the same
trees at the same positions.
-/

namespace MerkleSignature.Hypertree

open MerkleTree

/-- The leaves of a tree of the key fit their word. -/
theorem Params.treeHeight_le_leafBits (p : Params) : p.treeHeight ≤ leafBits :=
  p.treeHeight_le.trans (by decide)

/-- On the highest layer an index of the key selects the only tree. -/
theorem splitIndex_top (p : Params) {index : Nat} (hindex : index < p.capacity) :
    (splitIndex index p.treeHeight (p.layers - 1)).1 = 0 := by
  have hlayers : p.layers - 1 + 1 = p.layers := Nat.sub_add_cancel p.layers_pos
  have htotal : p.layers * p.treeHeight = p.totalHeight := Nat.mul_comm _ _
  rw [splitIndex, hlayers, htotal, Nat.shiftRight_eq_div_pow]
  exact Nat.div_eq_of_lt hindex

/-- What a key is made from. -/
structure Origin where
  params : Params
  seeds : SecretSeeds
  publicSeed : Bytes

/-- The tree with a given layer and number. -/
def Origin.tree (o : Origin) (layer number : Nat) : KeyTree :=
  PrivateKey.treeOf o.params o.seeds o.publicSeed layer number

/-- The root of a tree, and the one-time signature of a block by a leaf with the path of that leaf,
each computed anew. -/
def Origin.statelessShare (o : Origin) (layer number leaf : Nat) (block : Bytes) :
    Except Error (Bytes × ReducedSignature) := do
  let oneTime ← (o.tree layer number).signLeaf block leaf
  let (root, path) ← (o.tree layer number).tree.rootAndPath leaf
  return (root.value, ⟨oneTime, path⟩)

/-- The shares of `count` layers from `layer` on, the first of which signs `block`. -/
def Origin.statelessLayers (o : Origin) (index : Nat) :
    (layer count : Nat) → (block : Bytes) → Except Error (List ReducedSignature)
  | _, 0, _ => .ok []
  | layer, count + 1, block => do
    let (tree, leaf) := splitIndex index o.params.treeHeight layer
    let (root, share) ← o.statelessShare layer tree leaf block
    return share :: (← o.statelessLayers index (layer + 1) count root)

/-- The signature of a message with a given index, computed from the seeds alone. -/
def Origin.statelessSign (o : Origin) (index : Nat) (message : Bytes) : Except Error Signature := do
  let top ← (o.tree (o.params.layers - 1) 0).tree.subtreeRoot 0 o.params.treeHeight
  let randomness ← o.params.digest.messageRandomness o.seeds.prfKey index
  let block ← o.params.digest.messageDigest randomness top.value index message
  let layers ← o.statelessLayers index 0 o.params.layers block
  return ⟨o.params, index, randomness, layers⟩

namespace Origin

/-- The seeds have as many bytes as the digest. -/
structure WellSeeded (o : Origin) : Prop where
  length_secretSeed : o.seeds.secretSeed.length = o.params.n
  length_prfKey : o.seeds.prfKey.length = o.params.n
  length_publicSeed : o.publicSeed.length = o.params.n

/-- The value of the root of a tree. -/
def root (o : Origin) (layer number : Nat) : Bytes :=
  (o.tree layer number).tree.nodeValue o.params.treeHeight 0

/-- The share of a tree in a signature: the one-time signature of a block by a leaf, and the
authentication path of the leaf. -/
def share (o : Origin) (layer number leaf : Nat) (block : Bytes) : ReducedSignature where
  oneTime := ((o.tree layer number).signLeaf block leaf).toOption.getD []
  path := (o.tree layer number).tree.authPath leaf

/-- The shares of `count` layers from `layer` on, the first of which signs `block`. -/
def shares (o : Origin) (index : Nat) :
    (layer count : Nat) → (block : Bytes) → List ReducedSignature
  | _, 0, _ => []
  | layer, count + 1, block =>
    let (tree, leaf) := splitIndex index o.params.treeHeight layer
    o.share layer tree leaf block :: o.shares index (layer + 1) count (o.root layer tree)

/-- The public key of the keys that are made from an origin. -/
def publicKey (o : Origin) : PublicKey := ⟨o.params, o.root (o.params.layers - 1) 0, o.publicSeed⟩

variable {o : Origin}

/-- Every layer has one share. -/
@[simp] theorem length_shares (index layer count : Nat) (block : Bytes) :
    (o.shares index layer count block).length = count := by
  induction count generalizing layer block with
  | zero => rfl
  | succ count ih => simp [shares, ih]

/-- The path of a share has one node per level. -/
theorem length_path_of_mem_shares {index layer count : Nat} {block : Bytes}
    {reduced : ReducedSignature} (h : reduced ∈ o.shares index layer count block) :
    reduced.path.length = o.params.treeHeight := by
  induction count generalizing layer block with
  | zero => simp [shares] at h
  | succ count ih =>
    rw [shares] at h
    rcases List.mem_cons.1 h with rfl | hrest
    · exact length_authPath _
    · exact ih hrest

namespace WellSeeded

variable (ho : o.WellSeeded)
include ho

/-- The trees of a well-seeded origin are well-seeded. -/
theorem tree (layer number : Nat) : (o.tree layer number).WellSeeded :=
  ⟨ho.length_secretSeed, ho.length_publicSeed⟩

/-- The trees of a well-seeded origin are total. -/
theorem total (layer number : Nat) : (o.tree layer number).tree.Total :=
  KeyTree.total (ho.tree layer number)

/-- Every root has `n` bytes. -/
theorem length_root (layer number : Nat) : (o.root layer number).length = o.params.n :=
  KeyTree.length_nodeValue (ho.tree layer number) o.params.treeHeight 0

/-- A leaf signs a block as its share says, and the share commits to the root of the tree. -/
theorem share_spec {block : Bytes} (hblock : block.length = o.params.n) (layer number : Nat)
    {leaf : Nat} (hleaf : leaf < 2 ^ o.params.treeHeight) :
    (o.tree layer number).signLeaf block leaf = .ok (o.share layer number leaf block).oneTime ∧
      (o.share layer number leaf block).recoverRoot
        ⟨o.params.digest, o.params.width, o.publicSeed⟩ block (positionOf layer number) leaf =
          .ok (o.root layer number) := by
  obtain ⟨oneTime, hsign, hrecover⟩ :=
    KeyTree.recoverRoot_signLeaf (ho.tree layer number) hblock hleaf
  have hshare : o.share layer number leaf block =
      ⟨oneTime, (o.tree layer number).tree.authPath leaf⟩ := by
    rw [share, hsign]
    rfl
  rw [hshare]
  exact ⟨hsign, hrecover⟩

/-- The share that is computed anew is the share, and comes with the root. -/
theorem statelessShare_eq_ok {block : Bytes} (hblock : block.length = o.params.n)
    (layer number : Nat) {leaf : Nat} (hleaf : leaf < 2 ^ o.params.treeHeight) :
    o.statelessShare layer number leaf block =
      .ok (o.root layer number, o.share layer number leaf block) := by
  have hpath : (o.tree layer number).tree.rootAndPath leaf = _ :=
    rootAndPath_eq_ok (ho.total layer number) o.params.treeHeight_le hleaf
  rw [statelessShare, (ho.share_spec hblock layer number hleaf).1, ok_bind, hpath]
  rfl

/-- The shares that are computed anew are the shares of the layers. -/
theorem statelessLayers_eq_ok (index layer count : Nat) {block : Bytes}
    (hblock : block.length = o.params.n) :
    o.statelessLayers index layer count block = .ok (o.shares index layer count block) := by
  induction count generalizing layer block with
  | zero => rfl
  | succ count ih =>
    rw [statelessLayers, shares]
    dsimp only
    rw [ho.statelessShare_eq_ok hblock layer _ (splitIndex_leaf_lt ..), ok_bind]
    dsimp only
    rw [ih (layer + 1) (ho.length_root ..)]
    rfl

/-- The shares of some layers lead the verifier to the root of the tree on the last of them. -/
theorem recoverLayers_shares (index layer count : Nat) {block : Bytes}
    (hblock : block.length = o.params.n) :
    PublicKey.recoverLayers ⟨o.params.digest, o.params.width, o.publicSeed⟩ o.params.treeHeight
        index layer block (o.shares index layer (count + 1) block) =
      .ok (o.root (layer + count) (splitIndex index o.params.treeHeight (layer + count)).1) := by
  induction count generalizing layer block with
  | zero =>
    rw [shares, PublicKey.recoverLayers]
    dsimp only
    rw [(ho.share_spec hblock layer _ (splitIndex_leaf_lt ..)).2]
    rfl
  | succ count ih =>
    rw [shares, PublicKey.recoverLayers]
    dsimp only
    rw [(ho.share_spec hblock layer _ (splitIndex_leaf_lt ..)).2, ok_bind,
      ih (layer + 1) (ho.length_root ..), show layer + 1 + count = layer + (count + 1) by omega]

/-- Every message has a block to sign at every index. -/
theorem exists_block (index : Nat) (message : Bytes) :
    ∃ randomness block, o.params.digest.messageRandomness o.seeds.prfKey index = .ok randomness ∧
      o.params.digest.messageDigest randomness o.publicKey.root index message = .ok block ∧
      block.length = o.params.n := by
  obtain ⟨randomness, hrandomness, hlength⟩ :=
    Digest.messageRandomness_yields ho.length_prfKey index
  obtain ⟨block, hblock, hblockLength⟩ :=
    Digest.messageDigest_yields hlength (ho.length_root (o.params.layers - 1) 0) index message
  exact ⟨randomness, block, hrandomness, hblock, hblockLength⟩

/-- The stateless signer puts the shares of all layers together. -/
theorem statelessSign_eq_ok {index : Nat} {message randomness block : Bytes}
    (hrandomness : o.params.digest.messageRandomness o.seeds.prfKey index = .ok randomness)
    (hblock : o.params.digest.messageDigest randomness o.publicKey.root index message = .ok block)
    (hlength : block.length = o.params.n) :
    o.statelessSign index message =
      .ok ⟨o.params, index, randomness, o.shares index 0 o.params.layers block⟩ := by
  have htop : (o.tree (o.params.layers - 1) 0).tree.subtreeRoot 0 o.params.treeHeight = _ :=
    subtreeRoot_eq_ok (ho.total (o.params.layers - 1) 0) o.params.treeHeight_le
  have hblock' : o.params.digest.messageDigest randomness
      ((o.tree (o.params.layers - 1) 0).tree.nodeAt
        (o.tree (o.params.layers - 1) 0).tree.height 0).value index message = .ok block := hblock
  rw [statelessSign, htop, ok_bind, hrandomness, ok_bind, hblock', ok_bind,
    ho.statelessLayers_eq_ok index 0 o.params.layers hlength]
  rfl

/-- The stateless signer never fails. -/
theorem exists_statelessSign (index : Nat) (message : Bytes) :
    ∃ signature, o.statelessSign index message = .ok signature := by
  obtain ⟨randomness, block, hrandomness, hblock, hlength⟩ := ho.exists_block index message
  exact ⟨_, ho.statelessSign_eq_ok hrandomness hblock hlength⟩

/-- The shares of all layers make a valid signature. -/
theorem verify_shares {index : Nat} (hindex : index < o.params.capacity)
    {message randomness block : Bytes}
    (hblock : o.params.digest.messageDigest randomness o.publicKey.root index message = .ok block)
    (hlength : block.length = o.params.n) :
    o.publicKey.verify message
      ⟨o.params, index, randomness, o.shares index 0 o.params.layers block⟩ = true := by
  have hlayers : o.params.layers - 1 + 1 = o.params.layers :=
    Nat.sub_add_cancel o.params.layers_pos
  have hclimb := ho.recoverLayers_shares index 0 (o.params.layers - 1) hlength
  rw [hlayers, Nat.zero_add, splitIndex_top o.params hindex] at hclimb
  have hrecover : o.publicKey.recoverRoot message
      ⟨o.params, index, randomness, o.shares index 0 o.params.layers block⟩ =
        .ok o.publicKey.root := by
    rw [PublicKey.recoverRoot]
    dsimp only [publicKey] at hblock ⊢
    rw [hblock]
    exact hclimb
  have hfit : o.params = o.publicKey.params ∧ index < o.publicKey.params.capacity ∧
      (o.shares index 0 o.params.layers block).length = o.publicKey.params.layers ∧
      ∀ reduced ∈ o.shares index 0 o.params.layers block,
        reduced.path.length = o.publicKey.params.treeHeight :=
    ⟨rfl, hindex, length_shares .., fun _ h => length_path_of_mem_shares h⟩
  rw [PublicKey.verify, if_pos hfit, hrecover]
  exact beq_self_eq_true o.publicKey.root

/-- What the stateless signer computes is a valid signature with one share per layer. -/
theorem statelessSign_valid {index : Nat} (hindex : index < o.params.capacity) {message : Bytes}
    {signature : Signature} (h : o.statelessSign index message = .ok signature) :
    signature.index = index ∧ signature.layers.length = o.params.layers ∧
      o.publicKey.verify message signature = true := by
  obtain ⟨randomness, block, hrandomness, hblock, hlength⟩ := ho.exists_block index message
  rw [ho.statelessSign_eq_ok hrandomness hblock hlength] at h
  obtain rfl := Except.ok.inj h
  exact ⟨rfl, length_shares .., ho.verify_shares hindex hblock hlength⟩

end WellSeeded

end Origin

end MerkleSignature.Hypertree
