import MerkleSignature.Proofs.Scheme

/-!
# Which byte strings are stored keys

A stored key is an index field, the secret seeds, the public seed and the root of the top tree, one
after the other. Reading checks the length, then the index, then the root, which it compares with
the root of the tree that the seeds generate; rebuilding this tree never fails. So every byte string
of the right length is the encoding of exactly one choice of fields, it is refused for one of the
three reasons only, and the key that is read is stored as the bytes that it was read from.
-/

namespace MerkleSignature

/-- The root of a tree of one-time keys. -/
def KeyTree.root (k : KeyTree) : Except Error Bytes := k.tree.node k.height 0

/-- A tree with seeds of `n` bytes has a root. -/
theorem KeyTree.WellSeeded.root_eq_ok {k : KeyTree} (h : k.WellSeeded) :
    k.root = .ok (k.tree.nodeValue k.height 0) := (total h).node_eq k.height 0

namespace KeyKind

/-- How keys of a kind are stored. -/
structure Laws.Storage {K : KeyKind} (L : Laws K) where
  /-- What a stored key is called when it is refused. -/
  name : String
  indexSize : K.Params → Nat
  /-- The size of a stored key. -/
  size : K.Params → Nat
  /-- The layer of the tree whose root is stored. -/
  topLayer : K.Params → Nat
  /-- The key that stored fields generate, whatever root they hold. -/
  build : K.Params → KeyRecord → Except Error K.Key
  size_eq : ∀ p, size p = indexSize p + 4 * (K.digest p).size
  encode_eq : ∀ {key}, (K.record key).index < K.capacity (K.params key) →
    K.encode key = .ok ((K.record key).encode (indexSize (K.params key)))
  decode_eq : ∀ p bytes, K.decode p bytes =
    if bytes.length = size p then do
      let r := KeyRecord.decode (indexSize p) (K.digest p).size bytes
      if r.index < K.capacity p then do
        let key ← build p r
        if (K.record key).root = r.root then return key else throw .rootMismatch
      else throw (.indexOutOfRange r.index (K.capacity p))
    else .error (.invalidEncoding name (size p) bytes.length)
  exists_build : ∀ {p} {r : KeyRecord}, r.Fits (K.digest p).size → r.index < K.capacity p →
    ∃ key root, build p r = .ok key ∧
      (K.treeOf p r.seeds r.publicSeed (topLayer p) 0).root = .ok root ∧
      L.Coherent key ∧ K.params key = p ∧ K.record key = { r with root }

namespace Laws.Storage

variable {K : KeyKind} {L : Laws K} (S : Storage L) {p : K.Params} {bytes : Bytes} {key : K.Key}
include S

/-- The fields that are read from bytes of the right length. -/
theorem fits_of_length (hsize : bytes.length = S.size p) :
    (KeyRecord.decode (S.indexSize p) (K.digest p).size bytes).Fits (K.digest p).size :=
  KeyRecord.fits_decode (hsize.trans (S.size_eq p))

/-- Bytes of another length are refused. -/
theorem decode_of_length_ne (hsize : bytes.length ≠ S.size p) :
    K.decode p bytes = .error (.invalidEncoding S.name (S.size p) bytes.length) := by
  rw [S.decode_eq, if_neg hsize]

/-- Bytes of the right length with too large an index are refused. -/
theorem decode_of_index_ge (hsize : bytes.length = S.size p) {r : KeyRecord}
    (hr : KeyRecord.decode (S.indexSize p) (K.digest p).size bytes = r)
    (hindex : K.capacity p ≤ r.index) :
    K.decode p bytes = .error (.indexOutOfRange r.index (K.capacity p)) := by
  rw [S.decode_eq, if_pos hsize, hr]
  exact if_neg (Nat.not_lt.2 hindex)

/-- Bytes of the right length with an index in range are read when their root is that of the top
tree, and refused otherwise. -/
theorem exists_root (hsize : bytes.length = S.size p) {r : KeyRecord}
    (hr : KeyRecord.decode (S.indexSize p) (K.digest p).size bytes = r)
    (hindex : r.index < K.capacity p) :
    ∃ root, (K.treeOf p r.seeds r.publicSeed (S.topLayer p) 0).root = .ok root ∧
      (r.root ≠ root → K.decode p bytes = .error .rootMismatch) ∧
      (r.root = root → ∃ key, K.decode p bytes = .ok key ∧ L.Coherent key ∧ K.params key = p ∧
        K.record key = r) := by
  obtain ⟨key, root, hbuild, hroot, hkey, hparams, hrecord⟩ :=
    S.exists_build (hr ▸ S.fits_of_length hsize) hindex
  have hdecode : K.decode p bytes =
      if (K.record key).root = r.root then .ok key else .error .rootMismatch := by
    rw [S.decode_eq, if_pos hsize, hr]
    dsimp only
    rw [if_pos hindex, hbuild]
    rfl
  rw [hrecord] at hdecode
  refine ⟨root, hroot, fun hne => ?_, fun hsame => ⟨key, ?_, hkey, hparams, ?_⟩⟩
  · rw [hdecode, if_neg (Ne.symm hne)]
  · rw [hdecode, if_pos hsame.symm]
  · rw [hrecord, ← hsame]

/-- A key that is read is coherent, and is stored as the bytes that it was read from. -/
theorem spec_of_decode (h : K.decode p bytes = .ok key) :
    L.Coherent key ∧ K.params key = p ∧ (K.record key).index < K.capacity p ∧
      K.encode key = .ok bytes := by
  by_cases hsize : bytes.length = S.size p
  · obtain ⟨r, hr⟩ : ∃ r, KeyRecord.decode (S.indexSize p) (K.digest p).size bytes = r := ⟨_, rfl⟩
    rcases Nat.lt_or_ge r.index (K.capacity p) with hindex | hlarge
    · obtain ⟨root, -, hother, hsame⟩ := S.exists_root hsize hr hindex
      by_cases hroot : r.root = root
      · obtain ⟨read, hread, hcoherent, hparams, hrecord⟩ := hsame hroot
        obtain rfl := Except.ok.inj (hread.symm.trans h)
        refine ⟨hcoherent, hparams, hrecord ▸ hindex, ?_⟩
        rw [S.encode_eq (by rwa [hparams, hrecord]), hparams, hrecord, ← hr,
          KeyRecord.encode_decode (hsize.trans (S.size_eq p))]
      · rw [hother hroot] at h
        contradiction
    · rw [S.decode_of_index_ge hsize hr hlarge] at h
      contradiction
  · rw [S.decode_of_length_ne hsize] at h
    contradiction

end Laws.Storage

/-- The keys that a user can hold: they are generated or read, and then asked something. -/
inductive Held (K : KeyKind) (p : K.Params) : K.Key → Prop
  | generated {key : K.Key} (h : K.Generated p key) : Held K p key
  | read {key : K.Key} (bytes : Bytes) (h : K.decode p bytes = .ok key) : Held K p key
  | asked {key : K.Key} (r : Request) (h : Held K p key) : Held K p (K.ask key r).2

variable {K : KeyKind} {L : Laws K}

/-- Every key that a user can hold is live. -/
theorem Laws.Storage.live_of_held (S : L.Storage) {p : K.Params} {key : K.Key}
    (h : K.Held p key) : L.Live key ∧ K.params key = p := by
  induction h with
  | generated h =>
    obtain ⟨hcoherent, hparams⟩ := L.coherent_of_generated h
    exact ⟨.inl hcoherent, hparams⟩
  | read bytes h =>
    obtain ⟨hcoherent, hparams, -⟩ := S.spec_of_decode h
    exact ⟨.inl hcoherent, hparams⟩
  | asked r _ ih =>
    obtain ⟨hlive, rfl⟩ := ih
    exact hlive.ask r

end KeyKind

/-- Single-tree keys are stored with the root of their only tree. -/
def SingleTree.storage : SingleTree.laws.Storage where
  name := "XMSS private key"
  indexSize := Params.indexSize
  size := Params.privateKeySize
  topLayer _ := 0
  build p r := PrivateKey.build p r.seeds r.publicSeed r.index
  size_eq _ := rfl
  encode_eq h := if_pos h
  decode_eq _ _ := rfl
  exists_build {p r} hfits hindex := by
    obtain ⟨key, hbuild, hkey, rfl, -⟩ := PrivateKey.exists_build hfits.length_secretSeed
      hfits.length_prfKey hfits.length_publicSeed hindex
    obtain ⟨-, hrecord⟩ := PrivateKey.eq_of_build hbuild
    refine ⟨key, key.record.root, hbuild, ?_, hkey, rfl, hrecord⟩
    have hroot := hkey.wellSeeded.root_eq_ok
    rw [PrivateKey.keyTree, hrecord] at hroot
    rw [hkey.root_eq, PrivateKey.keyTree, hrecord]
    exact hroot

/-- Hypertree keys are stored with the root of the only tree on the top layer. -/
def Hypertree.storage : Hypertree.laws.Storage where
  name := "XMSS-MT private key"
  indexSize := Params.indexSize
  size := Params.privateKeySize
  topLayer p := p.layers - 1
  build p r := PrivateKey.build p r.seeds r.publicSeed r.index
  size_eq _ := rfl
  encode_eq h := if_pos h
  decode_eq _ _ := rfl
  exists_build {p r} hfits hindex := by
    have ho : (Origin.mk p r.seeds r.publicSeed).WellSeeded :=
      ⟨hfits.length_secretSeed, hfits.length_prfKey, hfits.length_publicSeed⟩
    obtain ⟨key, hbuild, hkey, horigin, hrecord⟩ := PrivateKey.exists_build ho (Nat.le_of_lt hindex)
    exact ⟨key, _, hbuild, (ho.tree (p.layers - 1) 0).root_eq_ok, hkey,
      congrArg Origin.params horigin, hrecord⟩

namespace Scheme

/-- How keys of each kind are stored. -/
def storage : (scheme : Scheme) → scheme.laws.Storage
  | singleTree => SingleTree.storage
  | hypertree => Hypertree.storage

/-- Reading accepts exactly the encodings of keys. Bytes that do not have the length of a stored key
are refused. All others are the encoding of an index, the seeds and a root in one way. They are
refused when the index is not below the capacity. Otherwise the top tree that the seeds generate has
a root; when the root field holds another one the bytes are refused, and when it holds this one they
are read as a key with these fields, which is stored as the same bytes again. -/
theorem decode_accepts_exactly_encodings (scheme : Scheme) (p : scheme.keys.Params)
    (bytes : Bytes) :
    (bytes.length ≠ scheme.storage.size p → scheme.keys.decode p bytes =
      .error (.invalidEncoding scheme.storage.name (scheme.storage.size p) bytes.length)) ∧
    (bytes.length = scheme.storage.size p → ∃ r : KeyRecord,
      r.Fits (scheme.keys.digest p).size ∧ r.encode (scheme.storage.indexSize p) = bytes ∧
      r.index = Bytes.ofBigEndian (bytes.take (scheme.storage.indexSize p)) ∧
      (scheme.keys.capacity p ≤ r.index → scheme.keys.decode p bytes =
        .error (.indexOutOfRange r.index (scheme.keys.capacity p))) ∧
      (r.index < scheme.keys.capacity p → ∃ root,
        (scheme.keys.treeOf p r.seeds r.publicSeed (scheme.storage.topLayer p) 0).root = .ok root ∧
        (r.root ≠ root → scheme.keys.decode p bytes = .error .rootMismatch) ∧
        (r.root = root → ∃ key, scheme.keys.decode p bytes = .ok key ∧
          scheme.keys.params key = p ∧ scheme.keys.record key = r ∧
          scheme.keys.encode key = .ok bytes))) := by
  refine ⟨scheme.storage.decode_of_length_ne, fun hsize => ?_⟩
  refine ⟨_, scheme.storage.fits_of_length hsize,
    KeyRecord.encode_decode (hsize.trans (scheme.storage.size_eq p)), rfl,
    scheme.storage.decode_of_index_ge hsize rfl, fun hindex => ?_⟩
  obtain ⟨root, hroot, hother, hsame⟩ := scheme.storage.exists_root hsize rfl hindex
  refine ⟨root, hroot, hother, fun h => ?_⟩
  obtain ⟨key, hread, -, hparams, hrecord⟩ := hsame h
  obtain ⟨-, -, -, hstored⟩ := scheme.storage.spec_of_decode hread
  exact ⟨key, hread, hparams, hrecord, hstored⟩

end Scheme

end MerkleSignature
