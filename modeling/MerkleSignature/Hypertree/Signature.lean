import MerkleSignature.Hypertree.Params
import MerkleSignature.ReducedSignature

/-!
# Hypertree signatures

A signature holds its global index, the randomness of the message hash and one reduced signature
per layer, the lowest layer first. It also knows the parameters it was made for, which fix the
width of the index field of its encoding.
-/

namespace MerkleSignature.Hypertree

/-- A signature. -/
structure Signature where
  params : Params
  index : Nat
  randomness : Bytes
  layers : List ReducedSignature
  deriving DecidableEq

namespace Signature

/-- The index, the randomness and the reduced signatures, one after the other. -/
def encode (s : Signature) : Bytes :=
  Bytes.toBigEndian s.params.indexSize s.index ++
    (s.randomness ++ s.layers.flatMap ReducedSignature.encode)

/-- Read a signature; its length and its index must fit the parameters. -/
def decode (p : Params) (bytes : Bytes) : Except Error Signature :=
  if bytes.length = p.signatureSize then
    let index := Bytes.ofBigEndian (bytes.take p.indexSize)
    let rest := bytes.drop p.indexSize
    if index < p.capacity then
      .ok {
        params := p
        index
        randomness := rest.take p.n
        layers := (chunks p.reducedSize (rest.drop p.n)).map
          (ReducedSignature.decode p.oneTime.signatureSize p.n) }
    else .error (.indexOutOfRange index p.capacity)
  else .error (.invalidEncoding "XMSS-MT signature" p.signatureSize bytes.length)

end Signature

end MerkleSignature.Hypertree
