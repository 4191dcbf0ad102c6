import MerkleSignature.Hypertree.Index
import MerkleSignature.Hypertree.Signature

/-!
# Hypertree public keys

A public key is the root of the top tree and the public seed. A signature is checked from the
lowest layer up: the root that the share of a layer commits to is the block that the next layer
signs, and the last of these roots must be the root of the key.
-/

namespace MerkleSignature.Hypertree

/-- The position of a tree with the given layer and number. -/
def positionOf (layer tree : Nat) : TreePosition := { layer := .ofNat layer, tree := .ofNat tree }

/-- A public key. -/
structure PublicKey where
  params : Params
  root : Bytes
  publicSeed : Bytes
  deriving DecidableEq

namespace PublicKey

/-- The root followed by the public seed. -/
def encode (key : PublicKey) : Bytes := key.root ++ key.publicSeed

/-- Read a public key of the right length. -/
def decode (p : Params) (bytes : Bytes) : Except Error PublicKey :=
  if bytes.length = p.publicKeySize then .ok ⟨p, bytes.take p.n, bytes.drop p.n⟩
  else .error (.invalidEncoding "XMSS-MT public key" p.publicKeySize bytes.length)

/-- The root that the reduced signatures from `layer` on commit to, if the first of them signs a
given block. -/
def recoverLayers (s : Winternitz.OneTime) (height index : Nat) :
    (layer : Nat) → (block : Bytes) → List ReducedSignature → Except Error Bytes
  | _, block, [] => .ok block
  | layer, block, reduced :: rest => do
    let (tree, leaf) := splitIndex index height layer
    let root ← reduced.recoverRoot s block (positionOf layer tree) leaf
    recoverLayers s height index (layer + 1) root rest

/-- The root that a signature of a message commits to. -/
def recoverRoot (key : PublicKey) (message : Bytes) (s : Signature) : Except Error Bytes := do
  let digest := key.params.digest
  let block ← digest.messageDigest s.randomness key.root s.index message
  recoverLayers ⟨digest, key.params.width, key.publicSeed⟩ key.params.treeHeight s.index 0 block
    s.layers

/-- Whether a signature of a message is valid. -/
def verify (key : PublicKey) (message : Bytes) (s : Signature) : Bool :=
  if s.params = key.params ∧ s.index < key.params.capacity ∧ s.layers.length = key.params.layers ∧
      ∀ reduced ∈ s.layers, reduced.path.length = key.params.treeHeight then
    match key.recoverRoot message s with
    | .ok root => root == key.root
    | .error _ => false
  else false

end PublicKey

end MerkleSignature.Hypertree
