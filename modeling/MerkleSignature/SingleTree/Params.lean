import MerkleSignature.Tree.Basic
import MerkleSignature.Winternitz.Params

/-!
# Parameters of single-tree keys

A single-tree key signs once with each leaf of one tree. Its parameters are a digest, a Winternitz
parameter and the height of the tree.
-/

namespace MerkleSignature

/-- The smallest height of a tree of a key. -/
def minKeyHeight : Nat := 2

namespace SingleTree

/-- The size of the index field of a signature. -/
def signatureIndexSize : Nat := 4

/-- The parameters of a single-tree key. -/
structure Params where
  digest : Digest
  width : Winternitz.Width
  height : Nat
  height_mem : minKeyHeight ≤ height ∧ height ≤ maxTreeHeight
  deriving DecidableEq

namespace Params

/-- Check a Winternitz parameter and a height. -/
def new (digest : Digest) (height w : Nat) : Except Error Params := do
  let width ← Winternitz.Width.ofBase w
  if height_mem : minKeyHeight ≤ height ∧ height ≤ maxTreeHeight then
    return { digest, width, height, height_mem }
  else throw (.invalidTreeHeight height minKeyHeight maxTreeHeight)

/-- The security parameter. -/
def n (p : Params) : Nat := p.digest.size

/-- The parameters of the one-time keys. -/
def oneTime (p : Params) : Winternitz.Params := .ofDigest p.digest p.width

/-- The number of leaves, which is the number of signatures a key can make. -/
def leaves (p : Params) : Nat := 2 ^ p.height

/-- The size of the index field of a private key. -/
def indexSize (p : Params) : Nat := (p.height + 7) / 8

/-- The size of an encoded public key. -/
def publicKeySize (p : Params) : Nat := 2 * p.n

/-- The size of an encoded private key. -/
def privateKeySize (p : Params) : Nat := p.indexSize + 4 * p.n

/-- The size of an encoded signature. -/
def signatureSize (p : Params) : Nat :=
  signatureIndexSize + p.n + p.oneTime.signatureSize + p.height * p.n

end Params

end SingleTree

end MerkleSignature
