import MerkleSignature.Proofs.KeyTree
import MerkleSignature.Signer

/-!
# Single-tree keys sign until they are exhausted

A key that was made from its seeds is coherent: its root is that of its tree, and its traversal is
ready at the leaf that signs next. A coherent key signs every message, the signature is valid, and
the key it leaves behind is coherent again. So the only way for a signature to fail is that all
leaves are used up.
-/

namespace MerkleSignature.SingleTree.PrivateKey

open MerkleTree

/-- What a key keeps belongs to its seeds and its index. -/
structure Coherent (key : PrivateKey) : Prop where
  wellSeeded : key.keyTree.WellSeeded
  length_prfKey : key.record.seeds.prfKey.length = key.params.n
  root_eq : key.record.root = key.keyTree.tree.nodeValue key.params.height 0
  index_le : key.record.index ≤ key.params.leaves
  ready : key.record.index < key.params.leaves →
    Traversal.ReadyAt key.keyTree.tree key.record.index key.traversal

/-- The key after it was asked to sign some messages, one after the other. -/
def afterSigning (key : PrivateKey) (messages : List Bytes) : PrivateKey :=
  messages.foldl (fun key message => (splitOutcome (key.sign message)).2) key

variable {p : Params} {seeds : SecretSeeds} {publicSeed : Bytes} {key : PrivateKey}

/-- Seeds of `n` bytes make a coherent key, whatever signature it makes first. -/
theorem exists_build (hsecret : seeds.secretSeed.length = p.n) (hprf : seeds.prfKey.length = p.n)
    (hpublic : publicSeed.length = p.n) {index : Nat} (hindex : index < p.leaves) :
    ∃ key, build p seeds publicSeed index = .ok key ∧ key.Coherent ∧
      key.params = p ∧ key.record.index = index := by
  have hseeds : (treeOf p seeds publicSeed).WellSeeded := ⟨hsecret, hpublic⟩
  obtain ⟨traversal, hrestore, hready⟩ :=
    Traversal.restore_eq_ok (KeyTree.total hseeds) p.height_mem.2 hindex
  refine ⟨{
    params := p
    record := ⟨index, seeds, publicSeed, (treeOf p seeds publicSeed).tree.nodeValue p.height 0⟩
    traversal }, ?_, ⟨hseeds, hprf, rfl, Nat.le_of_lt hindex, fun _ => hready⟩, rfl, rfl⟩
  rw [build, hrestore]
  rfl

/-- Seeds of `n` bytes are accepted and make a coherent key. -/
theorem exists_ofSeeds (hsecret : seeds.secretSeed.length = p.n)
    (hprf : seeds.prfKey.length = p.n) (hpublic : publicSeed.length = p.n) :
    ∃ key, ofSeeds p seeds publicSeed = .ok key ∧ key.Coherent ∧ key.params = p ∧
      key.record.index = 0 := by
  obtain ⟨key, hbuild, hkey⟩ := exists_build hsecret hprf hpublic (Nat.two_pow_pos p.height)
  refine ⟨key, ?_, hkey⟩
  rw [ofSeeds, checkSeeds_eq_ok hsecret hprf hpublic, ok_bind, hbuild]

/-- A key keeps the parameters, the seeds and the index from which it is built. -/
theorem eq_of_build {index : Nat} (h : build p seeds publicSeed index = .ok key) :
    key.params = p ∧ key.record = ⟨index, seeds, publicSeed, key.record.root⟩ := by
  obtain ⟨_, -, h⟩ := bind_eq_ok_iff.1 h
  obtain rfl := Except.ok.inj h
  exact ⟨rfl, rfl⟩

/-- A key is made from seeds of `n` bytes. It is coherent, keeps the seeds and makes the first
signature next. -/
theorem coherent_of_ofSeeds (h : ofSeeds p seeds publicSeed = .ok key) :
    key.Coherent ∧ key.params = p ∧ key.record = ⟨0, seeds, publicSeed, key.record.root⟩ := by
  obtain ⟨_, hcheck, hbuild⟩ := bind_eq_ok_iff.1 h
  obtain ⟨hsecret, hprf, hpublic⟩ := lengths_of_checkSeeds hcheck
  obtain ⟨built, hbuilt, hcoherent, -⟩ :=
    exists_build hsecret hprf hpublic (Nat.two_pow_pos p.height)
  obtain rfl := Except.ok.inj (hbuilt.symm.trans hbuild)
  exact ⟨hcoherent, eq_of_build hbuild⟩

/-- A coherent key with a leaf left can sign, and what it signs commits to its root. -/
theorem Coherent.exists_signParts (hkey : key.Coherent)
    (hindex : key.record.index < key.params.leaves) (message : Bytes) :
    ∃ randomness block oneTime,
      key.signParts key.record.index message = .ok (randomness, oneTime) ∧
      key.params.digest.messageDigest randomness key.record.root key.record.index message =
        .ok block ∧
      (ReducedSignature.mk oneTime (key.keyTree.tree.authPath key.record.index)).recoverRoot
        key.keyTree.oneTime block {} key.record.index = .ok key.record.root := by
  obtain ⟨randomness, hrandomness, hlength⟩ :=
    Digest.messageRandomness_yields hkey.length_prfKey key.record.index
  have hroot : key.record.root.length = key.params.digest.size := by
    rw [hkey.root_eq]
    exact KeyTree.length_nodeValue hkey.wellSeeded key.params.height 0
  obtain ⟨block, hblock, hblockLength⟩ :=
    Digest.messageDigest_yields hlength hroot key.record.index message
  obtain ⟨oneTime, hsign, hrecover⟩ :=
    KeyTree.recoverRoot_signLeaf hkey.wellSeeded hblockLength hindex
  refine ⟨randomness, block, oneTime, ?_, hblock, hkey.root_eq ▸ hrecover⟩
  rw [signParts, hrandomness, ok_bind, hblock, ok_bind, hsign]
  rfl

/-- The traversal of a coherent key moves on, and is ready at the next leaf if there is one. -/
theorem Coherent.exists_advance (hkey : key.Coherent)
    (hindex : key.record.index < key.params.leaves) :
    ∃ traversal, key.traversal.advance key.keyTree.tree key.record.index = .ok traversal ∧
      (key.record.index + 1 < key.params.leaves →
        Traversal.ReadyAt key.keyTree.tree (key.record.index + 1) traversal) := by
  have hready := hkey.ready hindex
  rcases Nat.lt_or_ge (key.record.index + 1) key.params.leaves with hmore | hlast
  · obtain ⟨traversal, hmove, hnext⟩ :=
      hready.advance (KeyTree.total hkey.wellSeeded) key.params.height_mem.2 hmore
    exact ⟨traversal, hmove, fun _ => hnext⟩
  · exact ⟨_, hready.advance_last hlast, fun hmore => absurd hmore (Nat.not_lt.2 hlast)⟩

/-- The public key accepts a signature that fits the parameters and commits to the root. -/
theorem verify_of_recoverRoot {message : Bytes} {signature : Signature}
    (hindex : signature.index < key.params.leaves)
    (hlength : signature.reduced.path.length = key.params.height)
    (hrecover : key.publicKey.recoverRoot message signature = .ok key.record.root) :
    key.publicKey.verify message signature = true := by
  rw [PublicKey.verify, if_pos ⟨hindex, hlength⟩, hrecover]
  exact beq_self_eq_true key.record.root

/-- A coherent key puts the randomness, the one-time signature and the authentication path of its
next leaf together, and stays coherent. -/
theorem Coherent.sign_eq_ok (hkey : key.Coherent) (hindex : key.record.index < key.params.leaves)
    {message randomness oneTime : Bytes}
    (hparts : key.signParts key.record.index message = .ok (randomness, oneTime)) :
    ∃ traversal, key.sign message =
        .ok (⟨key.record.index, randomness,
          ⟨oneTime, key.keyTree.tree.authPath key.record.index⟩⟩,
            { key.withIndex (key.record.index + 1) with traversal }) ∧
      Coherent { key.withIndex (key.record.index + 1) with traversal } := by
  obtain ⟨traversal, hmove, hnext⟩ := hkey.exists_advance hindex
  refine ⟨traversal, ?_,
    ⟨hkey.wellSeeded, hkey.length_prfKey, hkey.root_eq, hindex, hnext⟩⟩
  have hparts' : (key.withIndex (key.record.index + 1)).signParts key.record.index message =
      .ok (randomness, oneTime) := hparts
  have hmove' : (key.withIndex (key.record.index + 1)).traversal.advance
      (key.withIndex (key.record.index + 1)).keyTree.tree key.record.index = .ok traversal :=
    hmove
  rw [PrivateKey.sign, if_pos hindex, ← (hkey.ready hindex).path_eq]
  simp only [hparts', hmove']
  rfl

/-- A coherent key signs every message with its next leaf. The signature is valid, and the key stays
coherent. -/
theorem Coherent.sign (hkey : key.Coherent) (hindex : key.record.index < key.params.leaves)
    (message : Bytes) :
    ∃ signature after, key.sign message = .ok (signature, after) ∧
      signature.index = key.record.index ∧ key.publicKey.verify message signature = true ∧
      after.Coherent ∧ after.publicKey = key.publicKey ∧
      after.record.index = key.record.index + 1 := by
  obtain ⟨randomness, block, oneTime, hparts, hblock, hrecover⟩ :=
    hkey.exists_signParts hindex message
  obtain ⟨traversal, hsign, hafter⟩ := hkey.sign_eq_ok hindex hparts
  refine ⟨_, _, hsign, rfl, ?_, hafter, rfl, rfl⟩
  apply verify_of_recoverRoot hindex (length_authPath (t := key.keyTree.tree) _)
  rw [PublicKey.recoverRoot]
  dsimp only [publicKey]
  rw [hblock]
  exact hrecover

/-- An exhausted key refuses and stays as it is. -/
theorem sign_of_exhausted (hindex : key.params.leaves ≤ key.record.index) (message : Bytes) :
    key.sign message = .error (.keyExhausted key.params.leaves, key) := by
  rw [PrivateKey.sign, if_neg (Nat.not_lt.2 hindex)]

/-- Signing some messages uses up as many leaves, as long as there are any, and keeps the key
coherent. -/
theorem Coherent.afterSigning (hkey : key.Coherent) (messages : List Bytes) :
    (key.afterSigning messages).Coherent ∧ (key.afterSigning messages).publicKey = key.publicKey ∧
      (key.afterSigning messages).record.index =
        min key.params.leaves (key.record.index + messages.length) := by
  induction messages generalizing key with
  | nil =>
    refine ⟨hkey, rfl, ?_⟩
    rw [List.length_nil, Nat.add_zero, Nat.min_eq_right hkey.index_le]
    rfl
  | cons message messages ih =>
    rw [PrivateKey.afterSigning, List.foldl_cons]
    rcases Nat.lt_or_ge key.record.index key.params.leaves with hindex | hexhausted
    · obtain ⟨signature, after, hsign, -, -, hafter, hpublic, hnext⟩ := hkey.sign hindex message
      have hparams : after.params = key.params := congrArg PublicKey.params hpublic
      obtain ⟨hcoherent, hpublic', hcount⟩ := ih hafter
      rw [hsign]
      refine ⟨hcoherent, hpublic'.trans hpublic, hcount.trans ?_⟩
      rw [hnext, hparams, List.length_cons, Nat.add_assoc, Nat.add_comm 1]
    · obtain ⟨hcoherent, hpublic, hcount⟩ := ih hkey
      rw [sign_of_exhausted hexhausted message]
      refine ⟨hcoherent, hpublic, hcount.trans ?_⟩
      rw [List.length_cons]
      omega

/-- A key made from its seeds signs every sequence of messages until it is exhausted. The signature
number `k` has index `k` and is valid, and `k + 1` signatures less remain; when all leaves are used
up, the key refuses and stays as it is. -/
theorem sign_until_exhausted (p : Params) (seeds : SecretSeeds) (publicSeed : Bytes)
    (hsecret : seeds.secretSeed.length = p.n) (hprf : seeds.prfKey.length = p.n)
    (hpublic : publicSeed.length = p.n) :
    ∃ key, ofSeeds p seeds publicSeed = .ok key ∧
      ∀ (messages : List Bytes) (k : Nat) (hk : k < messages.length),
        (k < p.leaves → ∃ signature after,
          (key.afterSigning (messages.take k)).sign messages[k] = .ok (signature, after) ∧
            signature.index = k ∧ key.publicKey.verify messages[k] signature = true ∧
            after.remaining = p.leaves - k - 1) ∧
        (p.leaves ≤ k →
          (key.afterSigning (messages.take k)).sign messages[k] =
            .error (.keyExhausted p.leaves, key.afterSigning (messages.take k))) := by
  obtain ⟨key, hbuild, hkey, hparams, hstart⟩ :=
    exists_build hsecret hprf hpublic (Nat.two_pow_pos p.height)
  refine ⟨key, ?_, fun messages k hk => ?_⟩
  · rw [ofSeeds, checkSeeds_eq_ok hsecret hprf hpublic, ok_bind, hbuild]
  · obtain ⟨hbefore, hpublicKey, hcount⟩ := hkey.afterSigning (messages.take k)
    generalize key.afterSigning (messages.take k) = before at hbefore hpublicKey hcount ⊢
    have hbeforeParams : before.params = p := (congrArg PublicKey.params hpublicKey).trans hparams
    rw [hparams, hstart, List.length_take, Nat.zero_add,
      Nat.min_eq_left (Nat.le_of_lt hk)] at hcount
    refine ⟨fun hless => ?_, fun hmore => ?_⟩
    · have hindex : before.record.index = k := by omega
      obtain ⟨signature, after, hsign, hsigned, hverify, -, hafterKey, hafter⟩ :=
        hbefore.sign (by rwa [hindex, hbeforeParams]) messages[k]
      have hafterParams : after.params = p :=
        (congrArg PublicKey.params hafterKey).trans hbeforeParams
      refine ⟨signature, after, hsign, hsigned.trans hindex, hpublicKey ▸ hverify, ?_⟩
      rw [remaining, hafterParams, hafter, hindex, Nat.sub_sub]
    · have hexhausted : before.params.leaves ≤ before.record.index := by
        rw [hbeforeParams]
        omega
      have hrefuse := sign_of_exhausted hexhausted messages[k]
      rwa [hbeforeParams] at hrefuse

/-- The smallest parameters with the digest SHA-256. -/
def smallestParams : Params := ⟨.sha256, .four, 2, by decide⟩

/-- Zero seeds for the smallest parameters. -/
def zeroSeeds : SecretSeeds := ⟨List.replicate 32 0, List.replicate 32 0⟩

theorem exists_ofSeeds_smallestParams :
    ∃ key, ofSeeds smallestParams zeroSeeds (List.replicate 32 0) = .ok key ∧ key.Coherent ∧
      key.params = smallestParams ∧ key.record.index = 0 :=
  exists_ofSeeds (show zeroSeeds.secretSeed.length = smallestParams.n from List.length_replicate)
    List.length_replicate (show (List.replicate 32 (0 : UInt8)).length = smallestParams.n from
      List.length_replicate)

/-- A key with zero seeds makes four signatures. -/
theorem sign_until_exhausted_smallestParams :
    ∃ key, ofSeeds smallestParams ⟨List.replicate 32 0, List.replicate 32 0⟩ (List.replicate 32 0) =
        .ok key ∧
      ∀ (messages : List Bytes) (k : Nat) (hk : k < messages.length),
        (k < 4 → ∃ signature after,
          (key.afterSigning (messages.take k)).sign messages[k] = .ok (signature, after) ∧
            signature.index = k ∧ key.publicKey.verify messages[k] signature = true ∧
            after.remaining = 4 - k - 1) ∧
        (4 ≤ k →
          (key.afterSigning (messages.take k)).sign messages[k] =
            .error (.keyExhausted 4, key.afterSigning (messages.take k))) :=
  sign_until_exhausted smallestParams _ _ List.length_replicate List.length_replicate
    List.length_replicate

end MerkleSignature.SingleTree.PrivateKey
