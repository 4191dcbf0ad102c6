import MerkleSignature.Proofs.ReducedSignature
import MerkleSignature.Proofs.SingleTree.Completeness

/-!
# Valid single-tree signatures are bound to the tree

Whoever made a valid signature, its path and the one-time public key that it leads to are those of
the leaf that it names, or one of the joins of the verifier collides with the join by which the tree
computes the same node. It does not matter whether the leaf has signed before.
-/

namespace MerkleSignature

/-- What the joins of a leaf's L-tree and of the leaf's ancestors come to, as the tree computes
them, with a record of these joins. -/
def KeyTree.recordBranch (k : KeyTree) (leaf : Nat) : Recorded HashCall (Bytes × List Bytes) := do
  let publicKey ← k.oneTime.publicKey k.secretSeed k.position leaf
  let value ←
    LTree.recordRoot k.digest (k.digest.recordLTreeJoin k.publicSeed k.position leaf) publicKey
  let ancestors ←
    k.tree.recordAncestors (k.digest.recordHashTreeJoin k.publicSeed k.position) leaf 0 k.height
  return (value, ancestors)

open MerkleTree

/-- The branch of a leaf can be computed, by joins on the way from the leaf to the root. Climbing
along the authentication path makes the calls by which its ancestors are joined. -/
theorem KeyTree.exists_recordBranch {k : KeyTree} (hseeds : k.WellSeeded) {leaf : Nat}
    (hleaf : leaf < 2 ^ k.height) :
    ∃ publicKey value ancestors first second,
      k.oneTime.publicKey k.secretSeed k.position leaf = .ok publicKey ∧
      publicKey.length = k.oneTime.params.length * k.digest.size ∧
      (k.recordBranch leaf).run = .ok ((value, ancestors), first ++ second) ∧
      (∀ call ∈ first ++ second, call.place.OnBranch k.position leaf k.height) ∧
      (LTree.recordRoot k.digest (k.digest.recordLTreeJoin k.publicSeed k.position leaf)
        publicKey).run = .ok (value, first) ∧
      (recordPath (k.digest.recordHashTreeJoin k.publicSeed k.position) leaf 0 value
        (k.tree.authPath leaf)).run = .ok (k.tree.nodeValue k.height 0, second) := by
  obtain ⟨publicKey, hpublicKey, hlength⟩ := Winternitz.OneTime.publicKey_yields
    (show k.oneTime.publicSeed.length = k.oneTime.digest.size from hseeds.length_publicSeed)
    hseeds.length_secretSeed k.position leaf
  have hleafValue := (KeyTree.total hseeds).leaf_eq leaf
  change (do let publicKey ← k.oneTime.publicKey k.secretSeed k.position leaf
             LTree.root k.digest publicKey k.publicSeed k.position leaf) = _ at hleafValue
  rw [hpublicKey, ok_bind, ← LTree.value_recordRoot (Digest.value_recordLTreeJoin leaf)]
    at hleafValue
  obtain ⟨first, hfirst⟩ := Recorded.value_eq_ok_iff.1 hleafValue
  have hjoin : RecordedJoin.value (k.digest.recordHashTreeJoin k.publicSeed k.position) =
      k.tree.join := Digest.value_recordHashTreeJoin
  obtain ⟨second, hancestors, hclimb⟩ :=
    exists_recordAncestors (KeyTree.total hseeds) hjoin leaf 0 k.height
  have hroot : leaf >>> k.height = 0 := by
    rw [Nat.shiftRight_eq_div_pow, Nat.div_eq_of_lt hleaf]
  rw [Nat.zero_add, hroot, ← List.range_eq_range'] at hclimb
  have hbranch : (k.recordBranch leaf).run = .ok ((_, _), first ++ second) :=
    Recorded.run_lift_bind_eq_ok_iff.2 ⟨publicKey, hpublicKey, Recorded.run_bind_eq_ok_iff.2
      ⟨_, first, second, hfirst, Recorded.run_bind_pure_eq_ok_iff.2 ⟨_, hancestors, rfl⟩, rfl⟩⟩
  have hplaces : ∀ call ∈ first ++ second, call.place.OnBranch k.position leaf k.height :=
    List.forall_mem_append.2 ⟨LTree.always_recordRoot _ _ _ _ _ _ hfirst,
      always_recordPath (by rw [Nat.zero_add, List.length_map, List.length_range]) _ hclimb⟩
  exact ⟨publicKey, _, _, first, second, hpublicKey, hlength, hbranch, hplaces, hfirst, hclimb⟩

/-- A share that leads to the root of a tree has the path of its leaf and leads to the public key of
the leaf, or it collides with the tree on the way from the leaf to the root. -/
theorem KeyTree.share_binds {k : KeyTree} (hseeds : k.WellSeeded) {leaf : Nat}
    (hleaf : leaf < 2 ^ k.height) {r : ReducedSignature} {block : Bytes} {calls : List HashCall}
    (hpath : r.path.length = k.height)
    (h : (r.record k.oneTime block k.position leaf).run =
      .ok (k.tree.nodeValue k.height 0, calls)) :
    ∃ publicKey recovered branch branchCalls,
      k.oneTime.publicKey k.secretSeed k.position leaf = .ok publicKey ∧
      k.oneTime.recover r.oneTime block k.position leaf = .ok recovered ∧
      (k.recordBranch leaf).run = .ok (branch, branchCalls) ∧
      ((r.path = k.tree.authPath leaf ∧ recovered = publicKey) ∨
        ∃ place : HashPlace, place.OnBranch k.position leaf k.height ∧
          CollideAt k.digest place calls branchCalls) := by
  obtain ⟨publicKey, value, ancestors, first, second, hpublicKey, hlength, hbranch, hplaces, hvalue,
    hclimb⟩ := exists_recordBranch hseeds hleaf
  obtain ⟨recovered, _, _, hrecover, hrest, rfl⟩ := Recorded.run_bind_eq_ok_iff.1 h
  obtain ⟨value', _, _, hvalue', hclimb', rfl⟩ := Recorded.run_bind_eq_ok_iff.1 hrest
  have hrecoverValue := Recorded.value_eq_ok_iff.2 ⟨_, hrecover⟩
  rw [Winternitz.OneTime.value_recordRecover] at hrecoverValue
  refine ⟨publicKey, recovered, _, _, hpublicKey, hrecoverValue, hbranch, ?_⟩
  have hlevels : r.path.length = (k.tree.authPath leaf).length :=
    hpath.trans (length_authPath (t := k.tree) leaf).symm
  rcases path_eq_or_collision Digest.binding_recordHashTreeJoin hlevels hclimb' hclimb with
    ⟨rfl, hsame⟩ | hcollision
  · have hlengths : recovered.length = publicKey.length :=
      (Winternitz.OneTime.length_of_recordRecover hrecover).trans hlength.symm
    rcases LTree.publicKey_eq_or_collision hlengths hvalue' hvalue with hkeys | hcollision
    · exact .inl ⟨hsame, hkeys⟩
    · exact .inr ((hcollision.mono (fun c hc => by simp [hc])
        (List.subset_append_left ..)).exists_place hplaces)
  · exact .inr ((hcollision.mono (fun c hc => by simp [hc])
      (List.subset_append_right ..)).exists_place hplaces)

namespace SingleTree

/-- The root that a signature of a message commits to, with a record. -/
def PublicKey.record (key : PublicKey) (message : Bytes) (s : Signature) :
    Recorded HashCall Bytes := do
  let digest := key.params.digest
  let block ← digest.recordMessage s.randomness key.root s.index message
  s.reduced.record ⟨digest, key.params.width, key.publicSeed⟩ block {} s.index

/-- The recorded recovery of the root is its recovery. -/
@[simp] theorem PublicKey.value_record (key : PublicKey) (message : Bytes) (s : Signature) :
    (key.record message s).value = key.recoverRoot message s := by
  simp [record, recoverRoot]

/-- A valid signature fits the parameters, and verifying it arrives at the root of the key. -/
theorem PublicKey.exists_record_of_verify {key : PublicKey} {message : Bytes} {s : Signature}
    (h : key.verify message s = true) :
    s.index < key.params.leaves ∧ s.reduced.path.length = key.params.height ∧
      ∃ calls, (key.record message s).run = .ok (key.root, calls) := by
  rw [verify] at h
  split at h
  · rename_i hfit
    refine ⟨hfit.1, hfit.2, Recorded.value_eq_ok_iff.1 ?_⟩
    rw [value_record]
    split at h
    · rename_i root hroot
      rw [hroot, eq_of_beq h]
    · contradiction
  · contradiction

/-- A valid signature is bound to the tree of the key. Its authentication path is the path of the
leaf that it names and the one-time public key that it leads to is the public key of that leaf, or
at one node on the way from the leaf to the root the verifier and the tree join different pairs to
the same parent. -/
theorem PublicKey.verify_binds (p : Params) (seeds : SecretSeeds) (publicSeed : Bytes)
    (key : PrivateKey) (hkey : PrivateKey.ofSeeds p seeds publicSeed = .ok key) (message : Bytes)
    (s : Signature) (hverify : key.publicKey.verify message s = true) :
    ∃ root path publicKey block recovered branch calls branchCalls,
      (PrivateKey.treeOf p seeds publicSeed).tree.rootAndPath s.index = .ok (root, path) ∧
      (PrivateKey.treeOf p seeds publicSeed).oneTime.publicKey seeds.secretSeed {} s.index =
        .ok publicKey ∧
      p.digest.messageDigest s.randomness key.publicKey.root s.index message = .ok block ∧
      (PrivateKey.treeOf p seeds publicSeed).oneTime.recover s.reduced.oneTime block {} s.index =
        .ok recovered ∧
      (key.publicKey.record message s).run = .ok (key.publicKey.root, calls) ∧
      ((PrivateKey.treeOf p seeds publicSeed).recordBranch s.index).run =
        .ok (branch, branchCalls) ∧
      ((s.reduced.path = path ∧ recovered = publicKey) ∨
        ∃ place : HashPlace, place.OnBranch {} s.index p.height ∧
          CollideAt p.digest place calls branchCalls) := by
  obtain ⟨hcoherent, rfl, hrecord⟩ := PrivateKey.coherent_of_ofSeeds hkey
  have htree : key.keyTree = PrivateKey.treeOf key.params seeds publicSeed := by
    rw [PrivateKey.keyTree, hrecord]
  have hseeds := htree ▸ hcoherent.wellSeeded
  have hroot : key.publicKey = ⟨key.params,
      (PrivateKey.treeOf key.params seeds publicSeed).tree.nodeValue key.params.height 0,
      publicSeed⟩ := by
    rw [← htree, ← hcoherent.root_eq, PrivateKey.publicKey, hrecord]
  obtain ⟨hindex, hpath, calls, hrun⟩ := exists_record_of_verify hverify
  obtain ⟨block, _, shareCalls, hblock, hshare, rfl⟩ := Recorded.run_bind_eq_ok_iff.1 hrun
  have hblockValue := Recorded.value_eq_ok_iff.2 ⟨_, hblock⟩
  rw [Digest.value_recordMessage] at hblockValue
  rw [hroot] at hshare
  obtain ⟨publicKey, recovered, branch, branchCalls, hpublicKey, hrecover, hbranch, hcases⟩ :=
    KeyTree.share_binds hseeds hindex hpath hshare
  refine ⟨_, _, publicKey, block, recovered, branch, _, branchCalls,
    rootAndPath_eq_ok (KeyTree.total hseeds) key.params.height_mem.2 hindex, hpublicKey,
    hblockValue, hrecover, hrun, hbranch, hcases.imp_right ?_⟩
  rintro ⟨place, hplace, hcollide⟩
  exact ⟨place, hplace, hcollide.mono (List.subset_append_right ..) (List.Subset.refl _)⟩

open PrivateKey in
/-- The first signature of the key with zero seeds is bound to the first leaf. -/
theorem PublicKey.verify_binds_smallestParams :
    ∃ key s, ofSeeds smallestParams zeroSeeds (List.replicate 32 0) = .ok key ∧
      s.index = 0 ∧ key.publicKey.verify [] s = true ∧
      ∃ root path publicKey block recovered branch calls branchCalls,
        (treeOf smallestParams zeroSeeds (List.replicate 32 0)).tree.rootAndPath s.index =
          .ok (root, path) ∧
        (treeOf smallestParams zeroSeeds (List.replicate 32 0)).oneTime.publicKey
          zeroSeeds.secretSeed {} s.index = .ok publicKey ∧
        smallestParams.digest.messageDigest s.randomness key.publicKey.root s.index [] =
          .ok block ∧
        (treeOf smallestParams zeroSeeds (List.replicate 32 0)).oneTime.recover s.reduced.oneTime
          block {} s.index = .ok recovered ∧
        (key.publicKey.record [] s).run = .ok (key.publicKey.root, calls) ∧
        ((treeOf smallestParams zeroSeeds (List.replicate 32 0)).recordBranch s.index).run =
          .ok (branch, branchCalls) ∧
        ((s.reduced.path = path ∧ recovered = publicKey) ∨
          ∃ place : HashPlace, place.OnBranch {} s.index smallestParams.height ∧
            CollideAt smallestParams.digest place calls branchCalls) := by
  obtain ⟨key, hmade, hkey, hparams, hstart⟩ := exists_ofSeeds_smallestParams
  have hindex : key.record.index < key.params.leaves := by
    rw [hstart, hparams]
    decide
  obtain ⟨s, after, -, hsigned, hverify, -⟩ := hkey.sign hindex []
  exact ⟨key, s, hmade, hsigned.trans hstart, hverify,
    verify_binds smallestParams zeroSeeds _ key hmade [] s hverify⟩

end SingleTree

end MerkleSignature
