import MerkleSignature.SingleTree.Signature

/-!
# Single-tree public keys

A public key is the root of the tree and the public seed. A signature is valid when the root that
it commits to, for the digest of the message, is the root of the key. Signatures that do not fit
the parameters of the key are invalid, never an error.
-/

namespace MerkleSignature.SingleTree

/-- A public key. -/
structure PublicKey where
  params : Params
  root : Bytes
  publicSeed : Bytes
  deriving DecidableEq

namespace PublicKey

/-- The root followed by the public seed. -/
def encode (key : PublicKey) : Bytes := key.root ++ key.publicSeed

/-- Read a public key of the right length. -/
def decode (p : Params) (bytes : Bytes) : Except Error PublicKey :=
  if bytes.length = p.publicKeySize then .ok ⟨p, bytes.take p.n, bytes.drop p.n⟩
  else .error (.invalidEncoding "XMSS public key" p.publicKeySize bytes.length)

/-- The root that a signature of a message commits to. -/
def recoverRoot (key : PublicKey) (message : Bytes) (s : Signature) : Except Error Bytes := do
  let digest := key.params.digest
  let block ← digest.messageDigest s.randomness key.root s.index message
  s.reduced.recoverRoot ⟨digest, key.params.width, key.publicSeed⟩ block {} s.index

/-- Whether a signature of a message is valid. -/
def verify (key : PublicKey) (message : Bytes) (s : Signature) : Bool :=
  if s.index < key.params.leaves ∧ s.reduced.path.length = key.params.height then
    match key.recoverRoot message s with
    | .ok root => root == key.root
    | .error _ => false
  else false

end PublicKey

end MerkleSignature.SingleTree
