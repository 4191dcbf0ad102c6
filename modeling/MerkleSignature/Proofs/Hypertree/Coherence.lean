import MerkleSignature.Proofs.Hypertree.Stateless
import MerkleSignature.Signer

/-!
# What a hypertree key remembers

Beside its stored fields a key keeps the lowest tree in use and the last share of every upper layer.
A coherent key keeps nothing that its origin would not generate: the traversal of the lowest tree is
ready at the leaf that signs next, if that leaf is in this tree, and the last share of an upper
layer is the one by which its tree signs the root of the tree below.

A remembered share is used again exactly when the index selects the same tree and leaf on its layer,
and these make up the number of the tree below. So the root that was signed then is the root that
has to be signed now, and what a coherent key signs is what the stateless signer computes.
-/

namespace MerkleSignature.Hypertree

open MerkleTree

/-- The lowest tree in use is right for a key that signs next with a given index. -/
structure BottomTree.Faithful (o : Origin) (index : Nat) (b : BottomTree) : Prop where
  root_eq : b.root = o.root 0 b.tree
  ready : (splitIndex index o.params.treeHeight 0).1 = b.tree →
    Traversal.ReadyAt (o.tree 0 b.tree).tree (splitIndex index o.params.treeHeight 0).2 b.traversal

/-- What is remembered of the layer above `layer` is the share that signs the root of a tree on
`layer`. -/
structure UpperSignature.Faithful (o : Origin) (layer : Nat) (s : UpperSignature) : Prop where
  root_eq : s.root = o.root (layer + 1) s.tree
  reduced_eq : s.reduced = o.share (layer + 1) s.tree s.leaf
    (o.root layer (s.tree * 2 ^ o.params.treeHeight + s.leaf))

/-- What is remembered of the layers above `layer` is right. -/
def FaithfulAbove (o : Origin) : (layer : Nat) → List (Option UpperSignature) → Prop
  | _, [] => True
  | layer, entry :: rest => (∀ s ∈ entry, s.Faithful o layer) ∧ FaithfulAbove o (layer + 1) rest

/-- Nothing wrong is remembered where nothing is remembered. -/
theorem faithfulAbove_replicate_none (o : Origin) (layer count : Nat) :
    FaithfulAbove o layer (List.replicate count none) := by
  induction count generalizing layer with
  | zero => trivial
  | succ count ih =>
    rw [List.replicate_succ]
    exact ⟨fun _ h => absurd h (Option.not_mem_none _), ih (layer + 1)⟩

/-- Within one tree of the lowest layer the next index selects the next leaf. -/
theorem splitIndex_succ_leaf {height : Nat} (hheight : height ≤ leafBits) {index : Nat}
    (htree : (splitIndex (index + 1) height 0).1 = (splitIndex index height 0).1) :
    (splitIndex (index + 1) height 0).2 = (splitIndex index height 0).2 + 1 := by
  have hnext := splitIndex_join hheight (index + 1) 0
  have hthis := splitIndex_join hheight index 0
  rw [Nat.zero_mul, Nat.shiftRight_zero] at hnext hthis
  rw [htree] at hnext
  omega

namespace PrivateKey

/-- What the key is made from. -/
def origin (key : PrivateKey) : Origin := ⟨key.params, key.record.seeds, key.record.publicSeed⟩

/-- The key remembers nothing but what its origin generates. -/
structure Coherent (key : PrivateKey) : Prop where
  wellSeeded : key.origin.WellSeeded
  root_eq : key.record.root = key.origin.publicKey.root
  index_le : key.record.index ≤ key.params.capacity
  bottom : ∀ b ∈ key.bottom, b.Faithful key.origin key.record.index
  length_upper : key.upper.length = key.params.layers - 1
  upper : FaithfulAbove key.origin 0 key.upper

variable {key : PrivateKey} {index : Nat}

/-- Seeds of `n` bytes make a coherent key, whatever signature it makes first. -/
theorem exists_build {o : Origin} (ho : o.WellSeeded) (hindex : index ≤ o.params.capacity) :
    ∃ key, build o.params o.seeds o.publicSeed index = .ok key ∧ key.Coherent ∧ key.origin = o ∧
      key.record = ⟨index, o.seeds, o.publicSeed, o.publicKey.root⟩ := by
  have htop : (treeOf o.params o.seeds o.publicSeed (o.params.layers - 1) 0).tree.subtreeRoot 0
      o.params.treeHeight = .ok _ :=
    subtreeRoot_eq_ok (ho.total (o.params.layers - 1) 0) o.params.treeHeight_le
  refine ⟨⟨o.params, ⟨index, o.seeds, o.publicSeed, o.publicKey.root⟩, none,
      List.replicate (o.params.layers - 1) none⟩, ?_,
    ⟨ho, rfl, hindex, fun _ h => absurd h (Option.not_mem_none _), List.length_replicate,
      faithfulAbove_replicate_none o 0 _⟩, rfl, rfl⟩
  rw [build, htop]
  rfl

/-- Seeds of `n` bytes are accepted and make a coherent key. -/
theorem exists_ofSeeds {o : Origin} (ho : o.WellSeeded) :
    ∃ key, ofSeeds o.params o.seeds o.publicSeed = .ok key ∧ key.Coherent ∧ key.origin = o ∧
      key.record = ⟨0, o.seeds, o.publicSeed, o.publicKey.root⟩ := by
  obtain ⟨key, hbuild, hkey⟩ := exists_build ho (Nat.zero_le o.params.capacity)
  refine ⟨key, ?_, hkey⟩
  rw [ofSeeds, checkSeeds_eq_ok ho.length_secretSeed ho.length_prfKey ho.length_publicSeed, ok_bind,
    hbuild]

/-- The lowest tree for a signature is the one in use or a restored one, and is right for the index
either way. -/
theorem exists_bottomFor (ho : key.origin.WellSeeded)
    (hbottom : ∀ b ∈ key.bottom, b.Faithful key.origin index) {tree leaf : Nat}
    (hsplit : splitIndex index key.params.treeHeight 0 = (tree, leaf)) :
    ∃ b, key.bottomFor tree leaf = .ok b ∧ b.tree = tree ∧ b.Faithful key.origin index := by
  unfold bottomFor
  cases hkept : key.bottom.filter (·.tree = tree) with
  | some b =>
    obtain ⟨hmem, htree⟩ := Option.filter_eq_some_iff.1 hkept
    exact ⟨b, rfl, of_decide_eq_true htree, hbottom b hmem⟩
  | none =>
    have hleaf : leaf < 2 ^ key.params.treeHeight := by
      have hlt := splitIndex_leaf_lt index key.params.treeHeight 0
      rwa [hsplit] at hlt
    obtain ⟨traversal, hrestore, hready⟩ : ∃ traversal,
        Traversal.restore (key.keyTree 0 tree).tree leaf = .ok (traversal, _) ∧
          Traversal.ReadyAt (key.keyTree 0 tree).tree leaf traversal :=
      Traversal.restore_eq_ok (ho.total 0 tree) key.params.treeHeight_le hleaf
    refine ⟨⟨tree, key.origin.root 0 tree, traversal⟩, ?_, rfl, rfl, fun _ => ?_⟩
    · dsimp only
      rw [hrestore]
      rfl
    · have hleafEq : (splitIndex index key.params.treeHeight 0).2 = leaf := by rw [hsplit]
      exact hleafEq ▸ hready

/-- The lowest tree in use moves on to the next index, and stays as it is when the next index is in
another tree. -/
theorem exists_advance (ho : key.origin.WellSeeded) {b : BottomTree}
    (hb : b.Faithful key.origin index) {leaf : Nat}
    (hsplit : splitIndex index key.params.treeHeight 0 = (b.tree, leaf)) :
    ∃ traversal, b.traversal.advance (key.keyTree 0 b.tree).tree leaf = .ok traversal ∧
      BottomTree.Faithful key.origin (index + 1) { b with traversal } := by
  have hheight : key.params.treeHeight ≤ maxTreeHeight := key.params.treeHeight_le
  have hready := hb.ready (congrArg Prod.fst hsplit)
  have hleaf : (splitIndex index key.params.treeHeight 0).2 = leaf := by rw [hsplit]
  have hnext : (splitIndex (index + 1) key.params.treeHeight 0).1 = b.tree →
      (splitIndex (index + 1) key.params.treeHeight 0).2 = leaf + 1 := by
    intro hsame
    rw [← hleaf]
    exact splitIndex_succ_leaf key.params.treeHeight_le_leafBits
      (hsame.trans (congrArg Prod.fst hsplit).symm)
  rcases Nat.lt_or_ge (leaf + 1) (2 ^ key.params.treeHeight) with hmore | hlast
  · obtain ⟨traversal, hmove, hready'⟩ := (hleaf ▸ hready).advance (ho.total 0 b.tree) hheight hmore
    exact ⟨traversal, hmove, hb.root_eq, fun hsame => (hnext hsame) ▸ hready'⟩
  · -- Behind the last leaf of its tree the index selects another tree.
    refine ⟨_, (hleaf ▸ hready).advance_last hlast, hb.root_eq, fun hsame => ?_⟩
    have hlt := splitIndex_leaf_lt (index + 1) key.params.treeHeight 0
    rw [hnext hsame] at hlt
    exact absurd hlt (Nat.not_lt.2 hlast)

/-- The lowest layer signs a block as the share of its tree says. The lowest tree in use is then the
one that the index selects, and it is right for the next index. -/
theorem signBottom_eq_ok (ho : key.origin.WellSeeded)
    (hbottom : ∀ b ∈ key.bottom, b.Faithful key.origin index) {block : Bytes}
    (hblock : block.length = key.params.n) {tree leaf : Nat}
    (hsplit : splitIndex index key.params.treeHeight 0 = (tree, leaf)) :
    ∃ b, key.signBottom index block = .ok (key.origin.share 0 tree leaf block, b) ∧
      b.root = key.origin.root 0 tree ∧ b.Faithful key.origin (index + 1) := by
  obtain ⟨b, hfor, rfl, hfaithful⟩ := exists_bottomFor ho hbottom hsplit
  obtain ⟨traversal, hmove, hnext⟩ := exists_advance ho hfaithful hsplit
  have hready := hfaithful.ready (congrArg Prod.fst hsplit)
  have hleaf : leaf < 2 ^ key.params.treeHeight := by
    have hlt := splitIndex_leaf_lt index key.params.treeHeight 0
    rwa [hsplit] at hlt
  have hsign : (key.keyTree 0 b.tree).signLeaf block leaf = .ok _ :=
    (ho.share_spec hblock 0 b.tree hleaf).1
  have hpath : b.traversal.path = (key.origin.share 0 b.tree leaf block).path := by
    rw [hready.path_eq]
    change (key.origin.tree 0 b.tree).tree.authPath (splitIndex index key.params.treeHeight 0).2 = _
    rw [hsplit]
    rfl
  refine ⟨{ b with traversal }, ?_, hfaithful.root_eq, hnext⟩
  rw [signBottom, hsplit]
  dsimp only
  rw [hfor]
  dsimp only
  rw [hsign]
  dsimp only
  rw [hmove, hpath]

/-- The entry of an upper layer for a signature is the last one or a new one. Either way it is the
share that signs the root of the tree below. -/
theorem exists_upperFor (ho : key.origin.WellSeeded) {layer tree leaf number : Nat}
    {last : Option UpperSignature} (hlast : ∀ s ∈ last, s.Faithful key.origin layer)
    (hleaf : leaf < 2 ^ key.params.treeHeight)
    (hnumber : tree * 2 ^ key.params.treeHeight + leaf = number) :
    ∃ s, key.upperFor last (layer + 1) tree leaf (key.origin.root layer number) = .ok s ∧
      s.root = key.origin.root (layer + 1) tree ∧
      s.reduced = key.origin.share (layer + 1) tree leaf (key.origin.root layer number) ∧
      s.Faithful key.origin layer := by
  subst hnumber
  unfold upperFor
  cases hkept : last.filter fun s => s.tree = tree ∧ s.leaf = leaf with
  | some s =>
    obtain ⟨hmem, hsame⟩ := Option.filter_eq_some_iff.1 hkept
    obtain ⟨rfl, rfl⟩ := of_decide_eq_true hsame
    have hs := hlast s hmem
    exact ⟨s, rfl, hs.root_eq, hs.reduced_eq, hs⟩
  | none =>
    have hpath : (key.keyTree (layer + 1) tree).tree.rootAndPath leaf = .ok (_, _) :=
      rootAndPath_eq_ok (ho.total (layer + 1) tree) key.params.treeHeight_le hleaf
    have hsign : (key.keyTree (layer + 1) tree).signLeaf
        (key.origin.root layer (tree * 2 ^ key.params.treeHeight + leaf)) leaf = .ok _ :=
      (ho.share_spec (ho.length_root layer _) (layer + 1) tree hleaf).1
    refine ⟨⟨tree, leaf, key.origin.root (layer + 1) tree, key.origin.share (layer + 1) tree leaf
      (key.origin.root layer (tree * 2 ^ key.params.treeHeight + leaf))⟩, ?_, rfl, rfl, rfl, rfl⟩
    dsimp only
    rw [hpath, ok_bind]
    dsimp only
    rw [hsign]
    rfl

/-- The upper layers sign the root of the tree below them as the shares of their trees say, whatever
is remembered of them. -/
theorem signUpper_eq_ok (key : PrivateKey) (ho : key.origin.WellSeeded) (index : Nat) {layer : Nat}
    {entries : List (Option UpperSignature)} (hentries : FaithfulAbove key.origin layer entries) :
    ∃ after, key.signUpper index (layer + 1)
        (key.origin.root layer (splitIndex index key.params.treeHeight layer).1) entries =
          .ok (key.origin.shares index (layer + 1) entries.length
            (key.origin.root layer (splitIndex index key.params.treeHeight layer).1), after) ∧
      after.length = entries.length ∧ FaithfulAbove key.origin layer after := by
  induction entries generalizing layer with
  | nil => exact ⟨[], rfl, rfl, trivial⟩
  | cons last rest ih =>
    obtain ⟨hlast, hrest⟩ := hentries
    obtain ⟨after, hupper, hlength, hafter⟩ := ih hrest
    -- The tree and the leaf that are selected make up the number of the tree below.
    obtain ⟨s, hfor, hroot, hreduced, hs⟩ := exists_upperFor ho hlast
      (splitIndex_leaf_lt index key.params.treeHeight (layer + 1))
      (splitIndex_join key.params.treeHeight_le_leafBits index (layer + 1))
    refine ⟨some s :: after, ?_, congrArg (· + 1) hlength, fun _ h => ?_, hafter⟩
    · have hfor' : key.upperFor last (layer + 1)
          (splitIndex index key.params.treeHeight (layer + 1)).1
          (splitIndex index key.params.treeHeight (layer + 1)).2
          (key.origin.root layer (splitIndex index key.params.treeHeight layer).1) = .ok s := hfor
      rw [signUpper, List.length_cons, Origin.shares]
      dsimp only
      rw [hfor']
      dsimp only
      rw [hroot, hupper, hreduced]
      rfl
    · exact Option.mem_some_iff.1 h ▸ hs

/-- The public key of a coherent key is that of its origin. -/
theorem Coherent.publicKey_eq (hkey : key.Coherent) : key.publicKey = key.origin.publicKey := by
  rw [publicKey, hkey.root_eq]
  rfl

/-- A coherent key hashes a message as its origin does. -/
theorem Coherent.hashMessage_eq_ok (hkey : key.Coherent) {message randomness block : Bytes}
    (hrandomness : key.origin.params.digest.messageRandomness key.origin.seeds.prfKey index =
      .ok randomness)
    (hblock : key.origin.params.digest.messageDigest randomness key.origin.publicKey.root index
      message = .ok block) :
    key.hashMessage index message = .ok (randomness, block) := by
  rw [← hkey.root_eq] at hblock
  dsimp only [origin] at hrandomness hblock
  rw [hashMessage, hrandomness, ok_bind, hblock]
  rfl

/-- A coherent key with an index left signs every message as the stateless signer does, and stays
coherent. -/
theorem Coherent.sign (hkey : key.Coherent) (hindex : key.record.index < key.params.capacity)
    (message : Bytes) :
    ∃ signature after, key.sign message = .ok (signature, after) ∧
      key.origin.statelessSign key.record.index message = .ok signature ∧
      after.Coherent ∧ after.origin = key.origin ∧ after.record.index = key.record.index + 1 := by
  have ho := hkey.wellSeeded
  obtain ⟨randomness, block, hrandomness, hblock, hlength⟩ :=
    ho.exists_block key.record.index message
  have hhash : (key.withIndex (key.record.index + 1)).hashMessage key.record.index message =
      .ok (randomness, block) := hkey.hashMessage_eq_ok hrandomness hblock
  obtain ⟨b, hlowest, hroot, hb⟩ : ∃ b : BottomTree,
      (key.withIndex (key.record.index + 1)).signBottom key.record.index block = .ok (_, b) ∧
        b.root = key.origin.root 0 (splitIndex key.record.index key.params.treeHeight 0).1 ∧
        b.Faithful key.origin (key.record.index + 1) :=
    signBottom_eq_ok ho hkey.bottom hlength rfl
  obtain ⟨upper, hupper, hcount, habove⟩ : ∃ upper,
      signUpper ⟨key.params, (key.withIndex (key.record.index + 1)).record, some b, key.upper⟩
          key.record.index 1
          (key.origin.root 0 (splitIndex key.record.index key.params.treeHeight 0).1) key.upper =
        .ok (key.origin.shares key.record.index 1 key.upper.length
          (key.origin.root 0 (splitIndex key.record.index key.params.treeHeight 0).1), upper) ∧
      upper.length = key.upper.length ∧ FaithfulAbove key.origin 0 upper :=
    signUpper_eq_ok ⟨key.params, (key.withIndex (key.record.index + 1)).record, some b, key.upper⟩
      ho key.record.index hkey.upper
  have hlayers : key.params.layers = key.upper.length + 1 := by
    rw [hkey.length_upper]
    exact (Nat.sub_add_cancel key.params.layers_pos).symm
  refine ⟨⟨key.params, key.record.index, randomness,
      key.origin.shares key.record.index 0 key.params.layers block⟩,
    ⟨key.params, (key.withIndex (key.record.index + 1)).record, some b, upper⟩, ?_,
    ho.statelessSign_eq_ok hrandomness hblock hlength,
    ⟨ho, hkey.root_eq, hindex, fun _ h => ?_, hcount.trans hkey.length_upper, habove⟩, rfl, rfl⟩
  · rw [PrivateKey.sign, if_pos hindex]
    dsimp only
    rw [hhash]
    dsimp only
    rw [hlowest]
    dsimp only
    rw [hroot, hlayers]
    dsimp only [withIndex] at hupper ⊢
    rw [hupper]
    rfl
  · exact Option.mem_some_iff.1 h ▸ hb

/-- The upper layers that have signed are remembered. -/
theorem isSome_of_signUpper {layer : Nat} {below : Bytes}
    {entries after : List (Option UpperSignature)} {reduced : List ReducedSignature}
    (h : key.signUpper index layer below entries = .ok (reduced, after)) :
    ∀ entry ∈ after, entry.isSome := by
  induction entries generalizing layer below reduced after with
  | nil =>
    obtain ⟨-, rfl⟩ := Prod.mk.inj (Except.ok.inj h)
    exact fun entry hentry => (nomatch hentry)
  | cons last rest ih =>
    rw [signUpper] at h
    dsimp only at h
    split at h
    · contradiction
    · split at h
      · contradiction
      · rename_i hrest
        obtain ⟨-, rfl⟩ := Prod.mk.inj (Except.ok.inj h)
        exact List.forall_mem_cons.2 ⟨rfl, ih hrest⟩

/-- A key that has signed holds a lowest tree and a share of every upper layer. -/
theorem isSome_of_sign {message : Bytes} {signature : Signature} {after : PrivateKey}
    (h : key.sign message = .ok (signature, after)) :
    after.bottom.isSome ∧ ∀ entry ∈ after.upper, entry.isSome := by
  rw [PrivateKey.sign] at h
  dsimp only at h
  split at h
  · split at h
    · contradiction
    · split at h
      · contradiction
      · split at h
        · contradiction
        · rename_i hupper
          obtain ⟨-, rfl⟩ := Prod.mk.inj (Except.ok.inj h)
          exact ⟨rfl, isSome_of_signUpper hupper⟩
  · contradiction

/-- An exhausted key refuses and stays as it is. -/
theorem sign_of_exhausted (hindex : key.params.capacity ≤ key.record.index) (message : Bytes) :
    key.sign message = .error (.keyExhausted key.params.capacity, key) := by
  rw [PrivateKey.sign, if_neg (Nat.not_lt.2 hindex)]

/-- A request to sign leaves a coherent key of the same origin behind, whatever comes of it. -/
theorem Coherent.afterSign (hkey : key.Coherent) (message : Bytes) :
    (splitOutcome (key.sign message)).2.Coherent ∧
      (splitOutcome (key.sign message)).2.origin = key.origin := by
  rcases Nat.lt_or_ge key.record.index key.params.capacity with hindex | hexhausted
  · obtain ⟨signature, after, hsign, -, hafter, horigin, -⟩ := hkey.sign hindex message
    rw [hsign]
    exact ⟨hafter, horigin⟩
  · rw [sign_of_exhausted hexhausted]
    exact ⟨hkey, rfl⟩

end PrivateKey

end MerkleSignature.Hypertree
