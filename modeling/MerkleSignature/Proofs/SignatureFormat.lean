import MerkleSignature.Proofs.SignatureLayout
import MerkleSignature.Proofs.Storage

/-!
# Which byte strings are signatures

A signature is read from every byte string of the right length whose index is below the capacity,
and is written as the same bytes again. A signature that a key makes has parts of the sizes that its
parameters ask for, so it is read back as it was written.
-/

namespace MerkleSignature

open MerkleTree

/-- A one-time signature from which a verifier recovers anything has the right size. -/
theorem ReducedSignature.length_oneTime_of_recoverRoot {r : ReducedSignature}
    {s : Winternitz.OneTime} {block root : Bytes} {position : TreePosition} {leaf : Nat}
    (h : r.recoverRoot s block position leaf = .ok root) :
    r.oneTime.length = s.params.signatureSize := by
  obtain ⟨_, hrecover, -⟩ := bind_eq_ok_iff.1 h
  exact (checkLength_bind_eq_ok_iff.1 hrecover).1

namespace KeyTree

variable {k : KeyTree}

/-- The nodes of an authentication path have `n` bytes. -/
theorem WellSeeded.length_of_mem_authPath (h : k.WellSeeded) {leaf : Nat} {node : Bytes}
    (hnode : node ∈ k.tree.authPath leaf) : node.length = k.digest.size := by
  obtain ⟨level, -, rfl⟩ := List.mem_map.1 hnode
  exact length_nodeValue h level _

/-- What a leaf signs has, with the path of the leaf, the sizes of a share. -/
theorem WellSeeded.fits_signLeaf (h : k.WellSeeded) {block oneTime : Bytes} {leaf : Nat}
    (hblock : block.length = k.digest.size) (hleaf : leaf < 2 ^ k.height)
    (hsign : k.signLeaf block leaf = .ok oneTime) :
    (ReducedSignature.mk oneTime (k.tree.authPath leaf)).Fits (.ofDigest k.digest k.width)
      k.height := by
  obtain ⟨signed, hsigned, hrecover⟩ := recoverRoot_signLeaf h hblock hleaf
  obtain rfl := Except.ok.inj (hsigned.symm.trans hsign)
  have hparams : k.oneTime.params = .ofDigest k.digest k.width := rfl
  have honeTime : signed.length = k.oneTime.params.signatureSize :=
    ReducedSignature.length_oneTime_of_recoverRoot hrecover
  rw [hparams] at honeTime
  exact ⟨honeTime, length_authPath (t := k.tree) leaf,
    fun _ hnode => h.length_of_mem_authPath hnode⟩

end KeyTree

namespace KeyKind

/-- How the signatures of a kind of keys are written and read. -/
structure Laws.SignatureFormat {K : KeyKind} (L : Laws K) where
  /-- What a signature is called when it is refused. -/
  name : String
  layout : K.Params → SignatureLayout
  /-- The size of a signature. -/
  size : K.Params → Nat
  encode : K.Signature → Bytes
  decode : K.Params → Bytes → Except Error K.Signature
  parts : K.Signature → SignatureParts
  /-- Whether a signature is one for given parameters. -/
  IsFor : K.Params → K.Signature → Prop
  /-- The signature in bytes of the right length, whatever its index. -/
  read : K.Params → Bytes → K.Signature
  digest_eq : ∀ p, (layout p).digest = K.digest p
  size_eq : ∀ p, size p = (layout p).size
  capacity_le : ∀ p, K.capacity p ≤ 256 ^ (layout p).indexSize
  encode_eq : ∀ {p s}, IsFor p s → encode s = (layout p).encode (parts s)
  eq_of_parts_eq : ∀ {p s s'}, IsFor p s → IsFor p s' → parts s = parts s' → s = s'
  decode_eq : ∀ p bytes, decode p bytes =
    if bytes.length = size p then
      let index := Bytes.ofBigEndian (bytes.take (layout p).indexSize)
      if index < K.capacity p then .ok (read p bytes)
      else .error (.indexOutOfRange index (K.capacity p))
    else .error (.invalidEncoding name (size p) bytes.length)
  read_spec : ∀ {p bytes}, bytes.length = (layout p).size →
    IsFor p (read p bytes) ∧ parts (read p bytes) = (layout p).decode bytes
  signature_spec : ∀ {key}, L.Coherent key → (K.record key).index < K.capacity (K.params key) →
    ∀ {message s}, L.signature (K.params key) (K.record key) message = .ok s →
      IsFor (K.params key) s ∧ (layout (K.params key)).Fits (parts s) ∧
        (parts s).index = (K.record key).index

namespace Laws.SignatureFormat

variable {K : KeyKind} {L : Laws K} (F : SignatureFormat L) {p : K.Params} {bytes : Bytes}
  {s : K.Signature}

/-- A signature for given parameters whose parts have the right sizes and whose index is in
range. -/
structure WellFormed (p : K.Params) (s : K.Signature) : Prop where
  isFor : F.IsFor p s
  fits : (F.layout p).Fits (F.parts s)
  index_lt : (F.parts s).index < K.capacity p

/-- The signatures that a user can hold: they are made by keys that a user can hold, or read. -/
inductive Returned (p : K.Params) (s : K.Signature) : Prop
  | signed {key after : K.Key} {message : Bytes} (h : K.Held p key)
      (hsign : K.sign key message = .ok (s, after))
  | read (bytes : Bytes) (h : F.decode p bytes = .ok s)

variable {F}

/-- A well-formed signature has the size of an encoding. -/
theorem WellFormed.length_encode (h : F.WellFormed p s) : (F.encode s).length = F.size p := by
  rw [F.encode_eq h.isFor, h.fits.length_encode, F.size_eq]

/-- A well-formed signature is read back as it was written. -/
theorem WellFormed.decode_encode (h : F.WellFormed p s) : F.decode p (F.encode s) = .ok s := by
  have hsize := h.length_encode
  have hparts : (F.layout p).decode (F.encode s) = F.parts s := by
    rw [F.encode_eq h.isFor]
    exact h.fits.decode_encode (Nat.lt_of_lt_of_le h.index_lt (F.capacity_le p))
  obtain ⟨hisFor, hread⟩ := F.read_spec (hsize.trans (F.size_eq p))
  have hindex : Bytes.ofBigEndian ((F.encode s).take (F.layout p).indexSize) <
      K.capacity p := by
    have hfield : Bytes.ofBigEndian ((F.encode s).take (F.layout p).indexSize) =
        (F.parts s).index := congrArg SignatureParts.index hparts
    exact hfield ▸ h.index_lt
  rw [F.decode_eq, if_pos hsize]
  dsimp only
  rw [if_pos hindex, F.eq_of_parts_eq hisFor h.isFor (hread.trans hparts)]

variable (F)

/-- Bytes of another length are refused. -/
theorem decode_of_length_ne (hsize : bytes.length ≠ F.size p) :
    F.decode p bytes = .error (.invalidEncoding F.name (F.size p) bytes.length) := by
  rw [F.decode_eq, if_neg hsize]

/-- Bytes of the right length with too large an index are refused. -/
theorem decode_of_index_ge (hsize : bytes.length = F.size p) {index : Nat}
    (hfield : Bytes.ofBigEndian (bytes.take (F.layout p).indexSize) = index)
    (hindex : K.capacity p ≤ index) :
    F.decode p bytes = .error (.indexOutOfRange index (K.capacity p)) := by
  rw [F.decode_eq, if_pos hsize, hfield]
  exact if_neg (Nat.not_lt.2 hindex)

/-- From all other bytes a well-formed signature is read, which is written as these bytes. -/
theorem exists_decode (hsize : bytes.length = F.size p)
    (hindex : Bytes.ofBigEndian (bytes.take (F.layout p).indexSize) < K.capacity p) :
    ∃ s, F.decode p bytes = .ok s ∧ F.WellFormed p s ∧
      (F.parts s).index = Bytes.ofBigEndian (bytes.take (F.layout p).indexSize) ∧
      F.encode s = bytes := by
  have hlayout := hsize.trans (F.size_eq p)
  obtain ⟨hisFor, hread⟩ := F.read_spec hlayout
  have hfield : (F.parts (F.read p bytes)).index =
      Bytes.ofBigEndian (bytes.take (F.layout p).indexSize) := congrArg SignatureParts.index hread
  refine ⟨F.read p bytes, ?_, ⟨hisFor, ?_, hfield ▸ hindex⟩, hfield, ?_⟩
  · rw [F.decode_eq, if_pos hsize]
    exact if_pos hindex
  · exact hread ▸ SignatureLayout.fits_decode hlayout
  · rw [F.encode_eq hisFor, hread, SignatureLayout.encode_decode hlayout]

/-- Zero bytes are read as a signature if any bytes are. -/
theorem exists_returned (hcapacity : 0 < K.capacity p) : ∃ s, F.Returned p s := by
  have hindex : Bytes.ofBigEndian ((List.replicate (F.size p) 0).take (F.layout p).indexSize) = 0 :=
    by rw [List.take_replicate, Bytes.ofBigEndian_replicate_zero]
  obtain ⟨s, hread, -⟩ := F.exists_decode List.length_replicate (hindex ▸ hcapacity)
  exact ⟨s, .read _ hread⟩

/-- What is read is well-formed. -/
theorem wellFormed_of_decode (h : F.decode p bytes = .ok s) : F.WellFormed p s := by
  by_cases hsize : bytes.length = F.size p
  · rcases Nat.lt_or_ge (Bytes.ofBigEndian (bytes.take (F.layout p).indexSize)) (K.capacity p)
      with hindex | hlarge
    · obtain ⟨read, hread, hwellFormed, -⟩ := F.exists_decode hsize hindex
      obtain rfl := Except.ok.inj (hread.symm.trans h)
      exact hwellFormed
    · rw [F.decode_of_index_ge hsize rfl hlarge] at h
      contradiction
  · rw [F.decode_of_length_ne hsize] at h
    contradiction

/-- What a live key signs is well-formed. -/
theorem wellFormed_of_sign {key after : K.Key} {message : Bytes} (hkey : L.Live key)
    (h : K.sign key message = .ok (s, after)) : F.WellFormed (K.params key) s := by
  rcases Nat.lt_or_ge (K.record key).index (K.capacity (K.params key)) with hindex | hexhausted
  · have hcoherent := hkey.coherent hindex
    obtain ⟨signed, _, hsign, hs, -⟩ := L.sign_coherent hcoherent hindex message
    obtain ⟨rfl, -⟩ := Prod.mk.inj (Except.ok.inj (hsign.symm.trans h))
    obtain ⟨hisFor, hfits, hsame⟩ := F.signature_spec hcoherent hindex hs
    exact ⟨hisFor, hfits, hsame ▸ hindex⟩
  · rw [L.sign_exhausted hexhausted] at h
    contradiction

/-- Every signature that a user can hold is well-formed. -/
theorem wellFormed_of_returned (S : L.Storage) (h : F.Returned p s) : F.WellFormed p s := by
  cases h with
  | signed hheld hsign =>
    obtain ⟨hlive, rfl⟩ := S.live_of_held hheld
    exact F.wellFormed_of_sign hlive hsign
  | read bytes h => exact F.wellFormed_of_decode h

end Laws.SignatureFormat

end KeyKind

namespace SingleTree

/-- The layout of a signature. -/
def Params.layout (p : Params) : SignatureLayout where
  digest := p.digest
  width := p.width
  indexSize := signatureIndexSize
  height := p.height
  layers := 1

/-- The parts of a signature, which has a share of its only tree. -/
def Signature.parts (s : Signature) : SignatureParts := ⟨s.index, s.randomness, [s.reduced]⟩

/-- The index of a leaf fits its field. -/
theorem Params.leaves_le_indexRange (p : Params) : p.leaves ≤ 256 ^ signatureIndexSize :=
  calc 2 ^ p.height
    _ ≤ 2 ^ maxTreeHeight := Nat.pow_le_pow_right (by decide) p.height_mem.2
    _ ≤ 256 ^ signatureIndexSize := by decide

/-- A signature is written by the layout of its parameters. -/
theorem Signature.encode_eq (p : Params) (s : Signature) :
    s.encode = p.layout.encode s.parts := by
  rw [encode, parts, SignatureLayout.encode, List.flatMap_singleton]
  rfl

/-- The signature in bytes of the right length. -/
def Signature.read (p : Params) (bytes : Bytes) : Signature where
  index := Bytes.ofBigEndian (bytes.take signatureIndexSize)
  randomness := (bytes.drop signatureIndexSize).take p.n
  reduced := ReducedSignature.decode p.oneTime.signatureSize p.n
    ((bytes.drop signatureIndexSize).drop p.n)

/-- The only share is all that is left behind the randomness. -/
theorem Signature.parts_read {p : Params} {bytes : Bytes} (h : bytes.length = p.layout.size) :
    (read p bytes).parts = p.layout.decode bytes := by
  have hshare : ((bytes.drop signatureIndexSize).drop p.n).length = 1 * p.layout.shareSize :=
    SignatureLayout.length_shares_bytes h
  have honly : chunks p.layout.shareSize ((bytes.drop signatureIndexSize).drop p.n) =
      [(bytes.drop signatureIndexSize).drop p.n] := by
    rw [chunks_eq_pieces p.layout.shareSize_pos hshare]
    rw [Nat.one_mul] at hshare
    rw [pieces, pieces, List.take_of_length_le (Nat.le_of_eq hshare)]
  rw [parts, read, SignatureLayout.decode]
  dsimp only [Params.layout] at honly ⊢
  rw [Params.n] at honly
  rw [honly]
  rfl

/-- The parts of a signature determine it. -/
theorem Signature.eq_of_parts_eq {s s' : Signature} (h : s.parts = s'.parts) : s = s' := by
  obtain ⟨index, randomness, reduced⟩ := s
  obtain ⟨rfl, rfl, hshares⟩ := SignatureParts.mk.inj h
  obtain rfl := (List.cons.inj hshares).1
  rfl

/-- What the stateless signer makes has the sizes of the layout. -/
theorem fits_of_statelessSign {key : PrivateKey} (hkey : key.Coherent)
    (hindex : key.record.index < key.params.leaves) {message : Bytes} {s : Signature}
    (h : statelessSign key.params key.record message = .ok s) :
    key.params.layout.Fits s.parts ∧ s.index = key.record.index := by
  obtain ⟨randomness, hrandomness, h⟩ := bind_eq_ok_iff.1 h
  obtain ⟨block, hblock, h⟩ := bind_eq_ok_iff.1 h
  obtain ⟨oneTime, hsign, h⟩ := bind_eq_ok_iff.1 h
  obtain ⟨⟨_, path⟩, hpath, h⟩ := bind_eq_ok_iff.1 h
  obtain rfl := Except.ok.inj h
  obtain ⟨drawn, hdrawn, hlength⟩ :=
    Digest.messageRandomness_yields hkey.length_prfKey key.record.index
  obtain rfl := Except.ok.inj (hdrawn.symm.trans hrandomness)
  have hpass : key.keyTree.tree.rootAndPath key.record.index = .ok _ :=
    rootAndPath_eq_ok (KeyTree.total hkey.wellSeeded) key.params.height_mem.2 hindex
  obtain ⟨-, rfl⟩ := Prod.mk.inj (Except.ok.inj (hpass.symm.trans hpath))
  refine ⟨⟨hlength, rfl, fun r hr => ?_⟩, rfl⟩
  obtain rfl := List.mem_singleton.1 hr
  exact hkey.wellSeeded.fits_signLeaf (Digest.length_of_messageDigest hblock) hindex hsign

/-- How single-tree signatures are written and read. -/
def signatureFormat : laws.SignatureFormat where
  name := "XMSS signature"
  layout := Params.layout
  size := Params.signatureSize
  encode := Signature.encode
  decode := Signature.decode
  parts := Signature.parts
  IsFor _ _ := True
  read := Signature.read
  digest_eq _ := rfl
  size_eq p := by
    rw [SignatureLayout.size, show p.layout.layers = 1 from rfl, Nat.one_mul]
    exact Nat.add_assoc ..
  capacity_le p := p.leaves_le_indexRange
  encode_eq {p s} _ := s.encode_eq p
  eq_of_parts_eq _ _ := Signature.eq_of_parts_eq
  decode_eq _ _ := rfl
  read_spec h := ⟨trivial, Signature.parts_read h⟩
  signature_spec hkey hindex _ _ h :=
    ⟨trivial, (fits_of_statelessSign hkey hindex h).1, (fits_of_statelessSign hkey hindex h).2⟩

end SingleTree

namespace Hypertree

/-- The layout of a signature. -/
def Params.layout (p : Params) : SignatureLayout where
  digest := p.digest
  width := p.width
  indexSize := p.indexSize
  height := p.treeHeight
  layers := p.layers

/-- The parts of a signature. -/
def Signature.parts (s : Signature) : SignatureParts := ⟨s.index, s.randomness, s.layers⟩

/-- The shares of an origin have the sizes of a share. -/
theorem Origin.WellSeeded.fits_of_mem_shares {o : Origin} (ho : o.WellSeeded)
    {index layer count : Nat} {block : Bytes} (hblock : block.length = o.params.n)
    {r : ReducedSignature} (hr : r ∈ o.shares index layer count block) :
    r.Fits o.params.layout.oneTime o.params.treeHeight := by
  induction count generalizing layer block with
  | zero => exact absurd hr List.not_mem_nil
  | succ count ih =>
    rw [Origin.shares] at hr
    rcases List.mem_cons.1 hr with rfl | hr
    · have hleaf := splitIndex_leaf_lt index o.params.treeHeight layer
      exact (ho.tree layer _).fits_signLeaf hblock hleaf (ho.share_spec hblock layer _ hleaf).1
    · exact ih (ho.length_root ..) hr

/-- What the stateless signer makes has the sizes of the layout. -/
theorem Origin.WellSeeded.fits_of_statelessSign {o : Origin} (ho : o.WellSeeded) {index : Nat}
    {message : Bytes} {s : Signature} (h : o.statelessSign index message = .ok s) :
    s.params = o.params ∧ o.params.layout.Fits s.parts ∧ s.index = index := by
  obtain ⟨randomness, block, hrandomness, hblock, hlength⟩ := ho.exists_block index message
  obtain rfl := Except.ok.inj ((ho.statelessSign_eq_ok hrandomness hblock hlength).symm.trans h)
  obtain ⟨drawn, hdrawn, hsize⟩ := Digest.messageRandomness_yields ho.length_prfKey index
  obtain rfl := Except.ok.inj (hdrawn.symm.trans hrandomness)
  exact ⟨rfl, ⟨hsize, Origin.length_shares .., fun r hr => ho.fits_of_mem_shares hlength hr⟩, rfl⟩

/-- How hypertree signatures are written and read. -/
def signatureFormat : laws.SignatureFormat where
  name := "XMSS-MT signature"
  layout := Params.layout
  size := Params.signatureSize
  encode := Signature.encode
  decode := Signature.decode
  parts := Signature.parts
  IsFor p s := s.params = p
  read p bytes := ⟨p, (p.layout.decode bytes).index, (p.layout.decode bytes).randomness,
    (p.layout.decode bytes).shares⟩
  digest_eq _ := rfl
  size_eq _ := rfl
  capacity_le _ := KeyRecord.two_pow_le_indexRange _
  encode_eq h := h ▸ rfl
  eq_of_parts_eq {p s s'} h h' hparts := by
    obtain ⟨hindex, hrandomness, hlayers⟩ := SignatureParts.mk.inj hparts
    cases s
    cases s'
    congr
    exact h.trans h'.symm
  decode_eq _ _ := rfl
  read_spec _ := ⟨rfl, rfl⟩
  signature_spec {key} hkey _ _ _ h :=
    Origin.WellSeeded.fits_of_statelessSign (o := key.origin) hkey.wellSeeded h

end Hypertree

namespace Scheme

/-- How the signatures of each kind of keys are written and read. -/
def signatures : (scheme : Scheme) → scheme.laws.SignatureFormat
  | singleTree => SingleTree.signatureFormat
  | hypertree => Hypertree.signatureFormat

/-- Bytes and signatures correspond one to one. Bytes that do not have the length of a signature are
refused, and of the others those whose index is not below the capacity. All others are read as a
signature that is written as these bytes again. It has this index, randomness of `n` bytes and one
share per layer, and every share has one `n`-byte element per chain and one `n`-byte node per level.
Every signature that is made by a key or was read has the right length, and is read back as it was
written. -/
theorem signature_codec_bijective (scheme : Scheme) (p : scheme.keys.Params) :
    (∀ bytes : Bytes,
      (bytes.length ≠ scheme.signatures.size p → scheme.signatures.decode p bytes =
        .error (.invalidEncoding scheme.signatures.name (scheme.signatures.size p)
          bytes.length)) ∧
      (bytes.length = scheme.signatures.size p →
        ∃ index, index =
            Bytes.ofBigEndian (bytes.take (scheme.signatures.layout p).indexSize) ∧
          (scheme.keys.capacity p ≤ index → scheme.signatures.decode p bytes =
            .error (.indexOutOfRange index (scheme.keys.capacity p))) ∧
          (index < scheme.keys.capacity p → ∃ s, scheme.signatures.decode p bytes = .ok s ∧
            scheme.signatures.encode s = bytes ∧
            (scheme.signatures.parts s).index = index ∧
            (scheme.signatures.parts s).randomness.length = (scheme.keys.digest p).size ∧
            (scheme.signatures.parts s).shares.length = (scheme.signatures.layout p).layers ∧
            ∀ r ∈ (scheme.signatures.parts s).shares,
              r.oneTime.length = (scheme.signatures.layout p).oneTime.length *
                (scheme.keys.digest p).size ∧
              r.path.length = (scheme.signatures.layout p).height ∧
              ∀ node ∈ r.path, node.length = (scheme.keys.digest p).size))) ∧
    ∀ s, scheme.signatures.Returned p s →
      (scheme.signatures.encode s).length = scheme.signatures.size p ∧
        scheme.signatures.decode p (scheme.signatures.encode s) = .ok s := by
  refine ⟨fun bytes => ⟨scheme.signatures.decode_of_length_ne, fun hsize => ?_⟩, fun s hs => ?_⟩
  · refine ⟨_, rfl, scheme.signatures.decode_of_index_ge hsize rfl, fun hindex => ?_⟩
    obtain ⟨s, hread, hs, hfield, hwritten⟩ := scheme.signatures.exists_decode hsize hindex
    refine ⟨s, hread, hwritten, hfield, ?_⟩
    rw [← scheme.signatures.digest_eq p]
    refine ⟨hs.fits.length_randomness, hs.fits.length_shares, fun r hr => ?_⟩
    exact ⟨(hs.fits.share r hr).length_oneTime.trans (Winternitz.Params.signatureSize_ofDigest ..),
      (hs.fits.share r hr).length_path, (hs.fits.share r hr).length_of_mem_path⟩
  · have hwellFormed := scheme.signatures.wellFormed_of_returned scheme.storage hs
    exact ⟨hwellFormed.length_encode, hwellFormed.decode_encode⟩

end Scheme

end MerkleSignature
