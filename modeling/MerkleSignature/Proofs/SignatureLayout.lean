import MerkleSignature.Proofs.Bytes.Digits
import MerkleSignature.ReducedSignature

/-!
# The layout of signatures

A signature is written as an index field, the randomness of the message hash and one share per
layer; a share is a one-time signature followed by the nodes of a path. The writer goes by the parts
that it is given, the reader by the sizes of a layout. Both agree on parts that fit the layout: the
parts are read back as they were written, and bytes of the right length are written as they were
read.
-/

namespace MerkleSignature

namespace ReducedSignature

/-- A one-time signature and a path of the sizes that parameters and a height ask for. -/
structure Fits (p : Winternitz.Params) (height : Nat) (r : ReducedSignature) : Prop where
  length_oneTime : r.oneTime.length = p.signatureSize
  length_path : r.path.length = height
  length_of_mem_path : ∀ node ∈ r.path, node.length = p.n

variable {p : Winternitz.Params} {height : Nat} {r : ReducedSignature}

/-- The encoding of a share has the size of its fields. -/
theorem Fits.length_encode (h : r.Fits p height) :
    r.encode.length = p.signatureSize + height * p.n := by
  rw [encode, List.length_append, h.length_oneTime, length_flatten_of_forall h.length_of_mem_path,
    h.length_path]

/-- A share is read back as it was written. -/
theorem Fits.decode_encode (h : r.Fits p height) (hn : 0 < p.n) :
    decode p.signatureSize p.n r.encode = r := by
  rw [decode, encode, List.take_left' h.length_oneTime, List.drop_left' h.length_oneTime,
    chunks_flatten hn h.length_of_mem_path]

section Reading

variable {bytes : Bytes} (hsize : bytes.length = p.signatureSize + height * p.n)
include hsize

/-- What is left of the bytes of a share behind the one-time signature. -/
theorem length_rest : (bytes.drop p.signatureSize).length = height * p.n := by
  rw [List.length_drop, hsize, Nat.add_sub_cancel_left]

variable (hn : 0 < p.n)
include hn

/-- A share that is read from bytes of the right length has parts of the right sizes. -/
theorem fits_decode : (decode p.signatureSize p.n bytes).Fits p height := by
  have hrest := length_rest hsize
  have hpath : (decode p.signatureSize p.n bytes).path =
      pieces p.n height (bytes.drop p.signatureSize) := chunks_eq_pieces hn hrest
  refine ⟨?_, ?_, fun node hnode => ?_⟩
  · rw [decode, List.length_take, hsize]
    exact Nat.min_eq_left (Nat.le_add_right ..)
  · rw [hpath, length_pieces]
  · rw [hpath] at hnode
    exact length_of_mem_pieces (by rw [hrest, Nat.mul_comm]) hnode

/-- Bytes of the right length are written as they were read. -/
theorem encode_decode : (decode p.signatureSize p.n bytes).encode = bytes := by
  rw [decode, encode, flatten_chunks hn (length_rest hsize), List.take_append_drop]

end Reading

end ReducedSignature

/-- What a signature consists of. -/
structure SignatureParts where
  index : Nat
  randomness : Bytes
  /-- One share per layer, the lowest layer first. -/
  shares : List ReducedSignature

/-- What fixes the sizes of the fields of a signature. -/
structure SignatureLayout where
  digest : Digest
  width : Winternitz.Width
  indexSize : Nat
  /-- The height of each tree. -/
  height : Nat
  layers : Nat

namespace SignatureLayout

/-- The parameters of the one-time signatures. -/
def oneTime (l : SignatureLayout) : Winternitz.Params := .ofDigest l.digest l.width

/-- The size of a share. -/
def shareSize (l : SignatureLayout) : Nat := l.oneTime.signatureSize + l.height * l.digest.size

/-- The size of a signature. -/
def size (l : SignatureLayout) : Nat := l.indexSize + l.digest.size + l.layers * l.shareSize

/-- The index, the randomness and the shares, one after the other. -/
def encode (l : SignatureLayout) (x : SignatureParts) : Bytes :=
  Bytes.toBigEndian l.indexSize x.index ++
    (x.randomness ++ x.shares.flatMap ReducedSignature.encode)

/-- Cut an encoding into the index, the randomness and the shares. -/
def decode (l : SignatureLayout) (bytes : Bytes) : SignatureParts :=
  let rest := bytes.drop l.indexSize
  { index := Bytes.ofBigEndian (bytes.take l.indexSize)
    randomness := rest.take l.digest.size
    shares := (chunks l.shareSize (rest.drop l.digest.size)).map
      (ReducedSignature.decode l.oneTime.signatureSize l.digest.size) }

/-- The parts behind the index have the sizes of the layout. -/
structure Fits (l : SignatureLayout) (x : SignatureParts) : Prop where
  length_randomness : x.randomness.length = l.digest.size
  length_shares : x.shares.length = l.layers
  share : ∀ r ∈ x.shares, r.Fits l.oneTime l.height

variable {l : SignatureLayout} {x : SignatureParts} {bytes : Bytes}

/-- A one-time signature is not empty, so no share is. -/
theorem shareSize_pos (l : SignatureLayout) : 0 < l.shareSize := by
  have honeTime : l.oneTime.signatureSize = l.oneTime.length * l.digest.size :=
    Winternitz.Params.signatureSize_ofDigest l.digest l.width
  have hchains : 0 < l.oneTime.length := Nat.succ_pos _
  rw [shareSize, honeTime]
  exact Nat.add_pos_left (Nat.mul_pos hchains l.digest.size_pos) _

namespace Fits

variable (h : l.Fits x)
include h

/-- Every encoded share has the size of a share. -/
theorem length_of_mem_map_encode :
    ∀ piece ∈ x.shares.map ReducedSignature.encode, piece.length = l.shareSize := by
  intro piece hpiece
  obtain ⟨r, hr, rfl⟩ := List.mem_map.1 hpiece
  exact (h.share r hr).length_encode

/-- The encoding has the size of the layout. -/
theorem length_encode : (l.encode x).length = l.size := by
  rw [encode, List.length_append, List.length_append, Bytes.length_toBigEndian,
    h.length_randomness, List.flatMap_def, length_flatten_of_forall h.length_of_mem_map_encode,
    List.length_map, h.length_shares, size, Nat.add_assoc]

/-- The parts are read back as they were written, if the index fits its field. -/
theorem decode_encode (hindex : x.index < 256 ^ l.indexSize) : l.decode (l.encode x) = x := by
  have hshares : (x.shares.map ReducedSignature.encode).map
      (ReducedSignature.decode l.oneTime.signatureSize l.digest.size) = x.shares := by
    rw [List.map_map]
    exact (List.map_congr_left fun r hr => (h.share r hr).decode_encode l.digest.size_pos).trans
      (List.map_id x.shares)
  rw [decode, encode, List.take_left' (Bytes.length_toBigEndian ..),
    List.drop_left' (Bytes.length_toBigEndian ..), List.take_left' h.length_randomness,
    List.drop_left' h.length_randomness, Bytes.ofBigEndian_toBigEndian hindex, List.flatMap_def,
    chunks_flatten l.shareSize_pos h.length_of_mem_map_encode, hshares]

end Fits

section Reading

variable (hsize : bytes.length = l.size)
include hsize

/-- The bytes behind the randomness are those of the shares. -/
theorem length_shares_bytes :
    ((bytes.drop l.indexSize).drop l.digest.size).length = l.layers * l.shareSize := by
  rw [List.length_drop, List.length_drop, hsize, size]
  omega

/-- Every piece of these bytes is read as a share, and written again as it was. -/
theorem share_of_mem_chunks {piece : Bytes}
    (hpiece : piece ∈ chunks l.shareSize ((bytes.drop l.indexSize).drop l.digest.size)) :
    (ReducedSignature.decode l.oneTime.signatureSize l.digest.size piece).Fits l.oneTime l.height ∧
      (ReducedSignature.decode l.oneTime.signatureSize l.digest.size piece).encode = piece := by
  have hbytes := length_shares_bytes hsize
  rw [chunks_eq_pieces l.shareSize_pos hbytes] at hpiece
  have hlength : piece.length = l.shareSize :=
    length_of_mem_pieces (Nat.le_of_eq ((Nat.mul_comm ..).trans hbytes.symm)) hpiece
  exact ⟨ReducedSignature.fits_decode hlength l.digest.size_pos,
    ReducedSignature.encode_decode hlength l.digest.size_pos⟩

/-- Parts that are read from bytes of the right length fit the layout. -/
theorem fits_decode : l.Fits (l.decode bytes) := by
  refine ⟨?_, ?_, fun r hr => ?_⟩
  · rw [decode, List.length_take, List.length_drop, hsize, size]
    omega
  · rw [decode, List.length_map, chunks_eq_pieces l.shareSize_pos (length_shares_bytes hsize),
      length_pieces]
  · obtain ⟨piece, hpiece, rfl⟩ := List.mem_map.1 hr
    exact (share_of_mem_chunks hsize hpiece).1

/-- Bytes of the right length are written as they were read. -/
theorem encode_decode : l.encode (l.decode bytes) = bytes := by
  have hindex : (bytes.take l.indexSize).length = l.indexSize := by
    rw [List.length_take, hsize, size]
    omega
  have hshares : ((chunks l.shareSize ((bytes.drop l.indexSize).drop l.digest.size)).map
      (ReducedSignature.decode l.oneTime.signatureSize l.digest.size)).map
        ReducedSignature.encode = chunks l.shareSize
          ((bytes.drop l.indexSize).drop l.digest.size) := by
    rw [List.map_map]
    exact (List.map_congr_left fun piece hpiece => (share_of_mem_chunks hsize hpiece).2).trans
      (List.map_id _)
  have hfield := Bytes.toBigEndian_ofBigEndian (bytes.take l.indexSize)
  rw [hindex] at hfield
  rw [encode, decode, hfield, List.flatMap_def, hshares,
    flatten_chunks l.shareSize_pos (length_shares_bytes hsize), List.take_append_drop,
    List.take_append_drop]

end Reading

end SignatureLayout

end MerkleSignature
