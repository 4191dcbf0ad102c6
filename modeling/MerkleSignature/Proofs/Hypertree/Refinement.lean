import MerkleSignature.Proofs.Hypertree.Coherence
import MerkleSignature.Proofs.KeyRecord

/-!
# The stateful signer refines the stateless one

A key is made from its seeds or read from an encoding, and then changes with every message that it
is asked to sign. All keys that arise in this way are coherent, so neither the lowest tree in use
nor the shares that are remembered of the upper layers ever show in a signature.
-/

namespace MerkleSignature.Hypertree

open PrivateKey

/-- The keys of an origin: they are made from its seeds or read from an encoding with these seeds,
and stay keys of the origin when they are asked to sign. -/
inductive Reachable (o : Origin) : PrivateKey → Prop
  | made {key : PrivateKey} (h : ofSeeds o.params o.seeds o.publicSeed = .ok key) : Reachable o key
  | read {key : PrivateKey} (bytes : Bytes) (h : decode o.params bytes = .ok key)
      (origin_eq : key.origin = o) : Reachable o key
  | signed {key : PrivateKey} (message : Bytes) (h : Reachable o key) :
      Reachable o (splitOutcome (key.sign message)).2

variable {o : Origin} {key : PrivateKey}

/-- A key is made from seeds of `n` bytes, and is then the key that they build. -/
theorem build_of_ofSeeds (h : ofSeeds o.params o.seeds o.publicSeed = .ok key) :
    o.WellSeeded ∧ build o.params o.seeds o.publicSeed 0 = .ok key := by
  obtain ⟨_, hcheck, hbuild⟩ := bind_eq_ok_iff.1 h
  obtain ⟨hsecret, hprf, hpublic⟩ := lengths_of_checkSeeds hcheck
  exact ⟨⟨hsecret, hprf, hpublic⟩, hbuild⟩

/-- A key is read from an encoding of the right length, and is then the key that the stored seeds
build. -/
theorem build_of_decode {p : Params} {bytes : Bytes} (h : decode p bytes = .ok key) :
    ∃ seeds publicSeed index, (Origin.mk p seeds publicSeed).WellSeeded ∧ index < p.capacity ∧
      build p seeds publicSeed index = .ok key := by
  unfold decode at h
  split at h
  · rename_i hlength
    dsimp only at h
    split at h
    · rename_i hindex
      obtain ⟨built, hbuild, h⟩ := bind_eq_ok_iff.1 h
      split at h
      · obtain rfl := Except.ok.inj h
        have hfits := KeyRecord.fits_decode hlength
        exact ⟨_, _, _, ⟨hfits.length_secretSeed, hfits.length_prfKey, hfits.length_publicSeed⟩,
          hindex, hbuild⟩
      · contradiction
    · contradiction
  · contradiction

/-- Every key of an origin is coherent and has not forgotten its origin. -/
theorem Reachable.coherent (h : Reachable o key) : key.Coherent ∧ key.origin = o := by
  induction h with
  | made h =>
    obtain ⟨ho, hbuild⟩ := build_of_ofSeeds h
    obtain ⟨built, hbuilt, hcoherent, horigin, -⟩ := exists_build ho (Nat.zero_le o.params.capacity)
    obtain rfl := Except.ok.inj (hbuilt.symm.trans hbuild)
    exact ⟨hcoherent, horigin⟩
  | read bytes h horigin =>
    obtain ⟨seeds, publicSeed, index, ho, hindex, hbuild⟩ := build_of_decode h
    obtain ⟨built, hbuilt, hcoherent, -⟩ := exists_build ho (Nat.le_of_lt hindex)
    obtain rfl := Except.ok.inj (hbuilt.symm.trans hbuild)
    exact ⟨hcoherent, horigin⟩
  | signed message _ ih =>
    obtain ⟨hafter, hkept⟩ := ih.1.afterSign message
    exact ⟨hafter, hkept.trans ih.2⟩

/-- Seeds of `n` bytes make a key that arrives at every index by signing. After the first signature
it remembers a lowest tree and a share of every upper layer. -/
theorem exists_reachable (ho : o.WellSeeded) {index : Nat} (hindex : index ≤ o.params.capacity) :
    ∃ key, Reachable o key ∧ key.record.index = index ∧
      (0 < index → key.bottom.isSome ∧ ∀ entry ∈ key.upper, entry.isSome) := by
  induction index with
  | zero =>
    obtain ⟨key, hmade, -, -, hrecord⟩ := exists_ofSeeds ho
    exact ⟨key, .made hmade, by rw [hrecord], fun h => absurd h (Nat.lt_irrefl 0)⟩
  | succ index ih =>
    obtain ⟨key, hkey, rfl, -⟩ := ih (Nat.le_of_succ_le hindex)
    obtain ⟨hcoherent, rfl⟩ := hkey.coherent
    obtain ⟨signature, after, hsign, -, -, -, hafter⟩ := hcoherent.sign hindex []
    have hsigned := hkey.signed []
    rw [hsign] at hsigned
    exact ⟨after, hsigned, hafter, fun _ => isSome_of_sign hsign⟩

/-- The stateful signer refines the stateless one. Every key of an origin with an index left signs
every message, and the signature is the one that the stateless signer computes from the seeds, the
index and the message. -/
theorem sign_eq_statelessSign (o : Origin) (key : PrivateKey) (hkey : Reachable o key)
    (hindex : key.record.index < o.params.capacity) (message : Bytes) :
    ∃ signature after, key.sign message = .ok (signature, after) ∧
      o.statelessSign key.record.index message = .ok signature := by
  obtain ⟨hcoherent, rfl⟩ := hkey.coherent
  obtain ⟨signature, after, hsign, hstateless, -⟩ := hcoherent.sign hindex message
  exact ⟨signature, after, hsign, hstateless⟩

/-- Two layers of trees with four leaves, over SHA-256, with zero seeds. -/
def smallestOrigin : Origin where
  params := ⟨.sha256, .four, 2, 2, by decide, by decide, by decide, by decide⟩
  seeds := ⟨List.replicate 32 0, List.replicate 32 0⟩
  publicSeed := List.replicate 32 0

theorem smallestOrigin_wellSeeded : smallestOrigin.WellSeeded :=
  ⟨List.length_replicate, List.length_replicate, List.length_replicate⟩

/-- The key with zero seeds has made five signatures and remembers a lowest tree and a share of the
upper layer. It signs a message of three bytes with the second leaf of its second lowest tree. -/
theorem sign_eq_statelessSign_smallestOrigin :
    ∃ key, Reachable smallestOrigin key ∧ key.record.index = 5 ∧
      splitIndex 5 smallestOrigin.params.treeHeight 0 = (1, 1) ∧
      key.bottom.isSome ∧ (∀ entry ∈ key.upper, entry.isSome) ∧
      key.record.index < smallestOrigin.params.capacity ∧
      ∃ signature after, key.sign [1, 2, 3] = .ok (signature, after) ∧
        smallestOrigin.statelessSign key.record.index [1, 2, 3] = .ok signature := by
  obtain ⟨key, hkey, hfive, hremembers⟩ :=
    exists_reachable smallestOrigin_wellSeeded (show 5 ≤ smallestOrigin.params.capacity by decide)
  obtain ⟨hbottom, hupper⟩ := hremembers (by decide)
  have hindex : key.record.index < smallestOrigin.params.capacity := by
    rw [hfive]
    decide
  exact ⟨key, hkey, hfive, by decide, hbottom, hupper, hindex,
    sign_eq_statelessSign smallestOrigin key hkey hindex [1, 2, 3]⟩

end MerkleSignature.Hypertree
