import MerkleSignature.Proofs.Bounded.Verification
import MerkleSignature.Proofs.SignatureFormat
import MerkleSignature.Proofs.SingleTree.Binding

/-!
# Verification answers every signature

A public key may be shown a signature that was made or read under other parameters than its own. It
answers all the same, without leaving the bounds of any buffer or word. A signature of a single-tree
key does not tell its parameters, but its parts have the sizes that they ask for: the randomness has
`n` bytes, blocks of `n` bytes have one-time signatures of different sizes for different Winternitz
parameters, and the path has one node per level. So it is valid only for parameters that agree in
all of these. A signature of a hypertree key carries its parameters along, and they are compared.
-/

namespace MerkleSignature

/-- Among one-time signatures of blocks of one size, the size tells the Winternitz parameter. -/
theorem Winternitz.width_eq_of_signatureSize_eq {d d' : Digest} {width width' : Width}
    (hn : d.size = d'.size)
    (h : (Params.ofDigest d width).signatureSize = (Params.ofDigest d' width').signatureSize) :
    width = width' := by
  cases d <;> cases d' <;> cases width <;> cases width' <;> first | rfl | contradiction

/-- The public keys that a user can hold: they belong to keys that a user can hold, or are read. -/
inductive KeyKind.Published (K : KeyKind) (decode : K.Params → Bytes → Except Error K.PublicKey)
    (p : K.Params) (key : K.PublicKey) : Prop
  | generated {owner : K.Key} (h : K.Held p owner) (hkey : K.publicKey owner = key)
  | read (bytes : Bytes) (h : decode p bytes = .ok key)

namespace SingleTree

variable {p p' : Params} {key : PublicKey} {message : Bytes} {s : Signature}

/-- A public key that a user can hold has the parameters that it was made or read for. -/
theorem params_of_published (h : keyKind.Published PublicKey.decode p key) : key.params = p := by
  cases h with
  | generated h hkey => exact hkey ▸ (storage.live_of_held h).2
  | read bytes h =>
    unfold PublicKey.decode at h
    split at h
    · exact Except.ok.inj h ▸ rfl
    · contradiction

/-- The parts of a valid signature have the sizes that the parameters of the key ask for. -/
theorem sizes_of_verify (h : key.verify message s = true) :
    s.index < key.params.leaves ∧ s.randomness.length = key.params.n ∧
      s.reduced.oneTime.length = key.params.oneTime.signatureSize ∧
      s.reduced.path.length = key.params.height := by
  obtain ⟨hindex, hpath, calls, hrun⟩ := PublicKey.exists_record_of_verify h
  have hrecover : key.recoverRoot message s = .ok key.root := by
    rw [← PublicKey.value_record]
    exact Recorded.value_eq_ok_iff.2 ⟨calls, hrun⟩
  obtain ⟨block, hblock, hroot⟩ := bind_eq_ok_iff.1 hrecover
  have honeTime := ReducedSignature.length_oneTime_of_recoverRoot hroot
  exact ⟨hindex, (checkLength_bind_eq_ok_iff.1 hblock).1, honeTime, hpath⟩

/-- A signature that a user can hold under some parameters is valid only for keys whose parameters
agree with them in the security parameter, the Winternitz parameter and the height. -/
theorem agree_of_verify (hs : signatureFormat.Returned p' s) (h : key.verify message s = true) :
    key.params.n = p'.n ∧ key.params.width = p'.width ∧ key.params.height = p'.height := by
  obtain ⟨-, hrandomness, honeTime, hpath⟩ := sizes_of_verify h
  have hfits := (signatureFormat.wellFormed_of_returned storage hs).fits
  have hshare := hfits.share s.reduced (List.mem_singleton_self s.reduced)
  have hn : key.params.digest.size = p'.digest.size :=
    hrandomness.symm.trans hfits.length_randomness
  exact ⟨hn, Winternitz.width_eq_of_signatureSize_eq hn (honeTime.symm.trans hshare.length_oneTime),
    hpath.symm.trans hshare.length_path⟩

end SingleTree

namespace Hypertree

variable {p p' : Params} {key : PublicKey} {message : Bytes} {s : Signature}

/-- A public key that a user can hold has the parameters that it was made or read for. -/
theorem params_of_published (h : keyKind.Published PublicKey.decode p key) : key.params = p := by
  cases h with
  | generated h hkey => exact hkey ▸ (storage.live_of_held h).2
  | read bytes h =>
    unfold PublicKey.decode at h
    split at h
    · exact Except.ok.inj h ▸ rfl
    · contradiction

/-- A signature that a user can hold under some parameters is valid only for keys with these
parameters. -/
theorem agree_of_verify (hs : signatureFormat.Returned p' s) (h : key.verify message s = true) :
    key.params = p' ∧ s.index < key.params.capacity := by
  have hparams : s.params = p' := (signatureFormat.wellFormed_of_returned storage hs).isFor
  unfold PublicKey.verify at h
  split at h
  next hguard => exact ⟨hguard.1.symm.trans hparams, hguard.2.1⟩
  next => contradiction

end Hypertree

/-- Verification is safe and refuses foreign signatures. A public key that was generated or read
under some parameters, and a signature that was made or read under some parameters, can be put
together at will: verification stays within the bounds of its buffers and words, and answers. A
signature whose index is not below the number of signatures of the key is invalid; so is a
single-tree signature under parameters with another security parameter, Winternitz parameter or
height, and a hypertree signature under any other parameters. -/
theorem verify_within_bounds_refuses_foreign :
    (∀ (p p' : SingleTree.Params) (key : SingleTree.PublicKey) (s : SingleTree.Signature)
      (message : Bytes),
      SingleTree.keyKind.Published SingleTree.PublicKey.decode p key →
      SingleTree.signatureFormat.Returned p' s →
        key.boundedVerify message s = .ok (key.verify message s) ∧
        (p.leaves ≤ s.index ∨ p.n ≠ p'.n ∨ p.oneTime.w ≠ p'.oneTime.w ∨ p.height ≠ p'.height →
          key.verify message s = false)) ∧
    ∀ (p p' : Hypertree.Params) (key : Hypertree.PublicKey) (s : Hypertree.Signature)
      (message : Bytes),
      Hypertree.keyKind.Published Hypertree.PublicKey.decode p key →
      Hypertree.signatureFormat.Returned p' s →
        key.boundedVerify message s = .ok (key.verify message s) ∧
        (p.capacity ≤ s.index ∨ p ≠ p' → key.verify message s = false) := by
  constructor
  · intro p p' key s message hkey hs
    obtain rfl := SingleTree.params_of_published hkey
    refine ⟨key.boundedVerify_eq message s, fun hforeign => Bool.eq_false_iff.2 fun h => ?_⟩
    obtain ⟨hn, hwidth, hheight⟩ := SingleTree.agree_of_verify hs h
    have hindex := (SingleTree.sizes_of_verify h).1
    have hw : key.params.oneTime.w = p'.oneTime.w := congrArg Winternitz.Width.base hwidth
    rcases hforeign with hlarge | hn' | hw' | hheight'
    · exact Nat.not_lt.2 hlarge hindex
    · exact hn' hn
    · exact hw' hw
    · exact hheight' hheight
  · intro p p' key s message hkey hs
    obtain rfl := Hypertree.params_of_published hkey
    refine ⟨key.boundedVerify_eq message s, fun hforeign => Bool.eq_false_iff.2 fun h => ?_⟩
    obtain ⟨hparams, hindex⟩ := Hypertree.agree_of_verify hs h
    rcases hforeign with hlarge | hparams'
    · exact Nat.not_lt.2 hlarge hindex
    · exact hparams' hparams

/-- The key with zero seeds for trees of height 2 is shown a signature under parameters for trees of
height 3, and a hypertree key that was read from zero bytes is shown a signature under parameters
with another digest. Both answer that it is invalid. -/
theorem verify_within_bounds_refuses_foreign_smallestParams :
    ∃ (p' : SingleTree.Params) (key : SingleTree.PublicKey) (s : SingleTree.Signature)
      (q' : Hypertree.Params) (topKey : Hypertree.PublicKey) (layered : Hypertree.Signature),
      SingleTree.keyKind.Published SingleTree.PublicKey.decode
        SingleTree.PrivateKey.smallestParams key ∧
      SingleTree.signatureFormat.Returned p' s ∧
      SingleTree.PrivateKey.smallestParams.height ≠ p'.height ∧
      key.boundedVerify [] s = .ok (key.verify [] s) ∧ key.verify [] s = false ∧
      Hypertree.keyKind.Published Hypertree.PublicKey.decode Hypertree.smallestOrigin.params
        topKey ∧
      Hypertree.signatureFormat.Returned q' layered ∧ Hypertree.smallestOrigin.params ≠ q' ∧
      topKey.boundedVerify [] layered = .ok (topKey.verify [] layered) ∧
      topKey.verify [] layered = false := by
  obtain ⟨hsingle, hlayered⟩ := verify_within_bounds_refuses_foreign
  obtain ⟨owner, hmade, -⟩ := SingleTree.PrivateKey.exists_ofSeeds_smallestParams
  have hkey : SingleTree.keyKind.Published SingleTree.PublicKey.decode
      SingleTree.PrivateKey.smallestParams owner.publicKey :=
    .generated (.generated (.given _ _ hmade)) rfl
  obtain ⟨s, hs⟩ := SingleTree.signatureFormat.exists_returned
    (p := ⟨.sha256, .four, 3, by decide⟩) (Nat.two_pow_pos 3)
  have hheight : SingleTree.PrivateKey.smallestParams.height ≠ 3 := by decide
  obtain ⟨hanswer, hrefuse⟩ := hsingle _ _ _ s [] hkey hs
  obtain ⟨topKey, hread⟩ : ∃ topKey, Hypertree.PublicKey.decode Hypertree.smallestOrigin.params
      (List.replicate 64 0) = .ok topKey := ⟨_, if_pos List.length_replicate⟩
  obtain ⟨layered, hlayeredSignature⟩ := Hypertree.signatureFormat.exists_returned
    (p := ⟨.shake128, .four, 2, 2, by decide, by decide, by decide, by decide⟩)
    (Nat.two_pow_pos 4)
  have hdigest : Hypertree.smallestOrigin.params ≠
      ⟨.shake128, .four, 2, 2, by decide, by decide, by decide, by decide⟩ := by decide
  obtain ⟨hanswer', hrefuse'⟩ := hlayered _ _ topKey layered [] (.read _ hread) hlayeredSignature
  exact ⟨_, _, s, _, _, layered, hkey, hs, hheight, hanswer,
    hrefuse (.inr (.inr (.inr hheight))), .read _ hread, hlayeredSignature, hdigest, hanswer',
    hrefuse' (.inr hdigest)⟩

end MerkleSignature
