import MerkleSignature.ReducedSignature
import MerkleSignature.SingleTree.Params

/-!
# Single-tree signatures

A signature names the leaf that made it, the randomness of the message hash, and the reduced
signature of the tree. It is encoded as these fields, one after the other, with a four-byte index.
-/

namespace MerkleSignature.SingleTree

/-- A signature. -/
structure Signature where
  index : Nat
  randomness : Bytes
  reduced : ReducedSignature
  deriving DecidableEq

namespace Signature

/-- The index, the randomness, the one-time signature and the path, one after the other. -/
def encode (s : Signature) : Bytes :=
  Bytes.toBigEndian signatureIndexSize s.index ++ (s.randomness ++ s.reduced.encode)

/-- Read a signature; its length and its index must fit the parameters. -/
def decode (p : Params) (bytes : Bytes) : Except Error Signature :=
  if bytes.length = p.signatureSize then
    let index := Bytes.ofBigEndian (bytes.take signatureIndexSize)
    let rest := bytes.drop signatureIndexSize
    if index < p.leaves then
      .ok {
        index
        randomness := rest.take p.n
        reduced := ReducedSignature.decode p.oneTime.signatureSize p.n (rest.drop p.n) }
    else .error (.indexOutOfRange index p.leaves)
  else .error (.invalidEncoding "XMSS signature" p.signatureSize bytes.length)

end Signature

end MerkleSignature.SingleTree
