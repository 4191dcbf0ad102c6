import MerkleSignature.Proofs.KeyRecord
import MerkleSignature.Proofs.OneTimeUse
import MerkleSignature.Proofs.SingleTree.Completeness

/-!
# The life of a single-tree key

A coherent key signs as a stateless signer does, which computes everything from the parameters, the
stored fields and the message. When the key is stored and read again, its traversal is rebuilt at
the stored index, and the key that is read is coherent with the same stored fields.
-/

namespace MerkleSignature.SingleTree

open MerkleTree PrivateKey

/-- The one-time signature in a signature of a message. -/
def PublicKey.uses (key : PublicKey) (message : Bytes) (s : Signature) :
    Except Error (List OneTimeUse) := do
  let block ← key.params.digest.messageDigest s.randomness key.root s.index message
  return [⟨⟨0, 0, s.index⟩, block, s.reduced.oneTime⟩]

/-- Single-tree keys as a kind of key. -/
def keyKind : KeyKind where
  Params := Params
  Key := PrivateKey
  Signature := Signature
  PublicKey := PublicKey
  digest := Params.digest
  capacity := Params.leaves
  treeOf p seeds publicSeed _ _ := treeOf p seeds publicSeed
  params := PrivateKey.params
  record := PrivateKey.record
  same a b := a == b
  ofSeeds := ofSeeds
  generate := generate
  sign := PrivateKey.sign
  remaining := PrivateKey.remaining
  encode := PrivateKey.encode
  decode := PrivateKey.decode
  publicKey := PrivateKey.publicKey
  erase := PrivateKey.erase
  oneTimeSignatures s := [s.reduced.oneTime]
  uses := PublicKey.uses

/-- The signature that the stored fields of a key determine, computed from these fields alone. -/
def statelessSign (p : Params) (r : KeyRecord) (message : Bytes) : Except Error Signature := do
  let randomness ← p.digest.messageRandomness r.seeds.prfKey r.index
  let block ← p.digest.messageDigest randomness r.root r.index message
  let oneTime ← (treeOf p r.seeds r.publicSeed).signLeaf block r.index
  let (_, path) ← (treeOf p r.seeds r.publicSeed).tree.rootAndPath r.index
  return ⟨r.index, randomness, ⟨oneTime, path⟩⟩

variable {key : PrivateKey}

/-- Keys compare equal when their parameters and stored fields are the same. -/
theorem beq_iff {a b : PrivateKey} :
    (a == b) = true ↔ a.params = b.params ∧ a.record = b.record := by
  rw [show (a == b) = (a.params == b.params && a.record == b.record) from rfl, Bool.and_eq_true,
    beq_iff_eq, beq_iff_eq]

/-- What is stored depends on the parameters and the stored fields alone. -/
theorem encode_congr {a b : PrivateKey} (hparams : a.params = b.params)
    (hrecord : a.record = b.record) : a.encode = b.encode := by
  rw [encode, encode, hparams, hrecord]

/-- So does the public key, which does not depend on the index either. -/
theorem publicKey_congr {a b : PrivateKey} (hparams : a.params = b.params)
    (hroot : a.record.root = b.record.root) (hpublic : a.record.publicSeed = b.record.publicSeed) :
    a.publicKey = b.publicKey := by
  rw [publicKey, publicKey, hparams, hroot, hpublic]

/-- A random source makes a key from the seeds that it draws. -/
theorem generate_eq_ofSeeds {σ : Type} (p : Params) (source : RandomSource σ) (state : σ) :
    (generate p source state).1 = ofSeeds p (source.drawSeeds p.n state).1.1
      (source.drawSeeds p.n state).1.2 := by
  rw [ofSeeds, checkSeeds_drawSeeds]
  rfl

/-- A coherent key with a leaf left signs every message as the stateless signer does, and stays
coherent. -/
theorem PrivateKey.Coherent.sign_stateless (hkey : key.Coherent)
    (hindex : key.record.index < key.params.leaves) (message : Bytes) :
    ∃ signature after, key.sign message = .ok (signature, after) ∧
      statelessSign key.params key.record message = .ok signature ∧ after.Coherent ∧
      after.params = key.params ∧
      after.record = { key.record with index := key.record.index + 1 } := by
  obtain ⟨randomness, block, oneTime, hparts, -⟩ := hkey.exists_signParts hindex message
  obtain ⟨traversal, hsign, hafter⟩ := hkey.sign_eq_ok hindex hparts
  refine ⟨_, _, hsign, ?_, hafter, rfl, rfl⟩
  have hpass : (treeOf key.params key.record.seeds key.record.publicSeed).tree.rootAndPath
      key.record.index = .ok _ :=
    rootAndPath_eq_ok (KeyTree.total hkey.wellSeeded) key.params.height_mem.2 hindex
  obtain ⟨randomness', hrandomness, hparts⟩ := bind_eq_ok_iff.1 hparts
  obtain ⟨block', hblock, hparts⟩ := bind_eq_ok_iff.1 hparts
  obtain ⟨oneTime', hsigned, hparts⟩ := bind_eq_ok_iff.1 hparts
  obtain ⟨rfl, rfl⟩ := Prod.mk.inj (Except.ok.inj hparts)
  have hsigned' : (treeOf key.params key.record.seeds key.record.publicSeed).signLeaf block'
      key.record.index = .ok oneTime' := hsigned
  rw [statelessSign, hrandomness, ok_bind, hblock, ok_bind, hsigned', ok_bind, hpass]
  rfl

/-- A coherent key with a leaf left is stored and read again with the same stored fields. -/
theorem exists_reload (hkey : key.Coherent) (hindex : key.record.index < key.params.leaves) :
    ∃ bytes after, key.encode = .ok bytes ∧ decode key.params bytes = .ok after ∧
      after.Coherent ∧ after.params = key.params ∧ after.record = key.record := by
  have hfits : key.record.Fits key.params.n :=
    ⟨hkey.wellSeeded.length_secretSeed, hkey.length_prfKey, hkey.wellSeeded.length_publicSeed,
      hkey.root_eq ▸ KeyTree.length_nodeValue hkey.wellSeeded key.params.height 0⟩
  have hread : KeyRecord.decode key.params.indexSize key.params.n
      (key.record.encode key.params.indexSize) = key.record :=
    hfits.decode_encode (Nat.lt_of_lt_of_le hindex (KeyRecord.two_pow_le_indexRange _))
  obtain ⟨after, hbuild, hafter, hparams, -⟩ := exists_build hfits.length_secretSeed
    hfits.length_prfKey hfits.length_publicSeed hindex
  obtain ⟨-, hrecord⟩ := eq_of_build hbuild
  have hroot : after.record.root = key.record.root := by
    rw [hafter.root_eq, hkey.root_eq, keyTree, keyTree, hparams, hrecord]
  refine ⟨key.record.encode key.params.indexSize, after, if_pos hindex, ?_, hafter, hparams,
    hrecord.trans (by rw [hroot])⟩
  have hsize : (key.record.encode key.params.indexSize).length = key.params.privateKeySize :=
    hfits.length_encode key.params.indexSize
  rw [decode, if_pos hsize]
  dsimp only
  rw [hread, if_pos hindex, hbuild, ok_bind, if_pos hroot]
  rfl

/-- Single-tree keys behave as their stored fields say. -/
def laws : keyKind.Laws where
  Coherent := PrivateKey.Coherent
  signature := statelessSign
  same_iff := beq_iff
  generate_eq p source state := ⟨_, _, generate_eq_ofSeeds p source state⟩
  coherent_of_ofSeeds h := ⟨(coherent_of_ofSeeds h).1, (coherent_of_ofSeeds h).2.1⟩
  remaining_eq _ := rfl
  publicKey_congr := publicKey_congr
  encode_congr := encode_congr
  encode_exhausted hexhausted := ⟨_, if_neg (Nat.not_lt.2 hexhausted)⟩
  erase_eq _ := ⟨rfl, rfl⟩
  sign_exhausted hexhausted message := sign_of_exhausted hexhausted message
  sign_coherent hkey hindex message := hkey.sign_stateless hindex message
  reload_coherent hkey hindex := exists_reload hkey hindex

/-- A one-time key signs for the index of its leaf alone. -/
def useLaws : laws.UseLaws where
  signatures_eq h := by
    obtain ⟨block, -, huses⟩ := bind_eq_ok_iff.1 h
    obtain rfl := Except.ok.inj huses
    rfl
  index _ oneTimeKey := oneTimeKey.leaf
  block _ _ _ _ := []
  exists_uses {key} _ _ message s h := by
    obtain ⟨randomness, -, h⟩ := bind_eq_ok_iff.1 h
    obtain ⟨block, hblock, h⟩ := bind_eq_ok_iff.1 h
    obtain ⟨oneTime, hsign, h⟩ := bind_eq_ok_iff.1 h
    obtain ⟨⟨_, path⟩, -, h⟩ := bind_eq_ok_iff.1 h
    obtain rfl := Except.ok.inj h
    refine ⟨[⟨⟨0, 0, key.record.index⟩, block, oneTime⟩], ?_, List.nodup_singleton _, ?_⟩
    · exact bind_eq_ok_iff.2 ⟨block, hblock, rfl⟩
    · intro u hu
      obtain rfl := List.mem_singleton.1 hu
      exact ⟨Digest.length_of_messageDigest hblock, hsign, fun _ => rfl,
        fun hlayer => absurd rfl hlayer⟩

end MerkleSignature.SingleTree
