import MerkleSignature.Proofs.Hypertree.Refinement

/-!
# Hypertree keys sign until they are exhausted

A key can be stored and read again at any time, as long as it has an index left. The key that is
read has the same stored fields; what it remembered is lost, which does not show. So every key that
comes from one key by signing and reloading signs every message, the public key of the first key
accepts the signature, and only a key that has used up all indices refuses.
-/

namespace MerkleSignature.Hypertree

open PrivateKey

/-- The keys that come from a first key by signing messages and by storing and reading the key. -/
inductive Obtained (first : PrivateKey) : PrivateKey → Prop
  | first : Obtained first first
  | signed {key : PrivateKey} (message : Bytes) (h : Obtained first key) :
      Obtained first (splitOutcome (key.sign message)).2
  | reloaded {key after : PrivateKey} {bytes : Bytes} (h : Obtained first key)
      (stored : key.encode = .ok bytes) (read : decode key.params bytes = .ok after) :
      Obtained first after

variable {key : PrivateKey}

/-- A coherent key with an index left is stored and read again with the same stored fields. -/
theorem exists_reload (hkey : key.Coherent) (hindex : key.record.index < key.params.capacity) :
    ∃ bytes after, key.encode = .ok bytes ∧ decode key.params bytes = .ok after ∧
      after.Coherent ∧ after.origin = key.origin ∧ after.record = key.record := by
  have ho := hkey.wellSeeded
  have hfits : key.record.Fits key.params.n :=
    ⟨ho.length_secretSeed, ho.length_prfKey, ho.length_publicSeed,
      hkey.root_eq ▸ ho.length_root (key.params.layers - 1) 0⟩
  have hread : KeyRecord.decode key.params.indexSize key.params.n
      (key.record.encode key.params.indexSize) = key.record :=
    hfits.decode_encode (Nat.lt_of_lt_of_le hindex (KeyRecord.two_pow_le_indexRange _))
  obtain ⟨after, hbuild, hafter, horigin, hrecord⟩ : ∃ after,
      build key.params key.record.seeds key.record.publicSeed key.record.index = .ok after ∧
        after.Coherent ∧ after.origin = key.origin ∧
        after.record = ⟨key.record.index, key.record.seeds, key.record.publicSeed,
          key.origin.publicKey.root⟩ :=
    exists_build ho hkey.index_le
  rw [← hkey.root_eq] at hrecord
  have hsame : after.record = key.record := hrecord
  refine ⟨key.record.encode key.params.indexSize, after, if_pos hindex, ?_, hafter, horigin, hsame⟩
  have hsize : (key.record.encode key.params.indexSize).length = key.params.privateKeySize :=
    hfits.length_encode key.params.indexSize
  rw [decode, if_pos hsize]
  dsimp only
  rw [hread, if_pos hindex, hbuild, ok_bind, if_pos (congrArg KeyRecord.root hsame)]
  rfl

/-- Signing and reloading keep a key coherent and do not change its origin. -/
theorem Obtained.coherent {first : PrivateKey} (hfirst : first.Coherent)
    (h : Obtained first key) : key.Coherent ∧ key.origin = first.origin := by
  induction h with
  | first => exact ⟨hfirst, rfl⟩
  | signed message _ ih =>
    obtain ⟨hafter, hkept⟩ := ih.1.afterSign message
    exact ⟨hafter, hkept.trans ih.2⟩
  | @reloaded key after bytes _ stored read ih =>
    obtain ⟨hkey, horigin⟩ := ih
    have hindex : key.record.index < key.params.capacity := by
      by_contra hexhausted
      rw [encode, if_neg hexhausted] at stored
      contradiction
    obtain ⟨bytes', after', hstored, hread, hafter, hkept, -⟩ := exists_reload hkey hindex
    obtain rfl := Except.ok.inj (hstored.symm.trans stored)
    obtain rfl := Except.ok.inj (hread.symm.trans read)
    exact ⟨hafter, hkept.trans horigin⟩

/-- A key made from its seeds signs until it is exhausted, however often it is stored and read in
between. As long as an index is left, the signature carries this index and one share per layer, the
public key accepts it, and the key can be stored and read; when all indices are used up, the key
refuses and stays as it is. -/
theorem sign_valid_until_exhausted (p : Params) (seeds : SecretSeeds) (publicSeed : Bytes)
    (hsecret : seeds.secretSeed.length = p.n) (hprf : seeds.prfKey.length = p.n)
    (hpublic : publicSeed.length = p.n) :
    ∃ first, ofSeeds p seeds publicSeed = .ok first ∧ ∀ key, Obtained first key →
      key.record.index ≤ p.capacity ∧
      (key.record.index < p.capacity →
        (∃ bytes after, key.encode = .ok bytes ∧ decode p bytes = .ok after ∧
          after.record = key.record) ∧
        ∀ message, ∃ signature after, key.sign message = .ok (signature, after) ∧
          signature.index = key.record.index ∧ signature.layers.length = p.layers ∧
          first.publicKey.verify message signature = true) ∧
      (key.record.index = p.capacity →
        ∀ message, key.sign message = .error (.keyExhausted p.capacity, key)) := by
  have ho : (Origin.mk p seeds publicSeed).WellSeeded := ⟨hsecret, hprf, hpublic⟩
  obtain ⟨first, hmade, hfirst, horigin, -⟩ := exists_ofSeeds ho
  refine ⟨first, hmade, fun key hkey => ?_⟩
  obtain ⟨hcoherent, hkept⟩ := hkey.coherent hfirst
  have hparams : key.params = p := congrArg Origin.params (hkept.trans horigin)
  subst hparams
  refine ⟨hcoherent.index_le, fun hindex => ⟨?_, fun message => ?_⟩, fun hindex message => ?_⟩
  · obtain ⟨bytes, after, hstored, hread, -, -, hrecord⟩ := exists_reload hcoherent hindex
    exact ⟨bytes, after, hstored, hread, hrecord⟩
  · obtain ⟨signature, after, hsign, hstateless, -⟩ := hcoherent.sign hindex message
    obtain ⟨hsigned, hlayers, hverify⟩ :=
      hcoherent.wellSeeded.statelessSign_valid hindex hstateless
    refine ⟨signature, after, hsign, hsigned, hlayers, ?_⟩
    rw [hfirst.publicKey_eq, ← hkept]
    exact hverify
  · exact sign_of_exhausted (Nat.le_of_eq hindex.symm) message

/-- The key with zero seeds makes sixteen signatures. -/
theorem sign_valid_until_exhausted_smallestOrigin :
    ∃ first, ofSeeds smallestOrigin.params smallestOrigin.seeds smallestOrigin.publicSeed =
        .ok first ∧ ∀ key, Obtained first key →
      key.record.index ≤ 16 ∧
      (key.record.index < 16 →
        (∃ bytes after, key.encode = .ok bytes ∧ decode smallestOrigin.params bytes = .ok after ∧
          after.record = key.record) ∧
        ∀ message, ∃ signature after, key.sign message = .ok (signature, after) ∧
          signature.index = key.record.index ∧ signature.layers.length = 2 ∧
          first.publicKey.verify message signature = true) ∧
      (key.record.index = 16 →
        ∀ message, key.sign message = .error (.keyExhausted 16, key)) :=
  sign_valid_until_exhausted smallestOrigin.params smallestOrigin.seeds smallestOrigin.publicSeed
    smallestOrigin_wellSeeded.length_secretSeed smallestOrigin_wellSeeded.length_prfKey
    smallestOrigin_wellSeeded.length_publicSeed

end MerkleSignature.Hypertree
