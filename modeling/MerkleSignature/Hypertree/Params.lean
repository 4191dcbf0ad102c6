import MerkleSignature.SingleTree.Params

/-!
# Parameters of hypertree keys

A hypertree consists of layers of trees of one height. The trees of the lowest layer sign messages,
and every other tree signs the roots of the trees below it. The parameters are a digest, a
Winternitz parameter, the number of layers and the height of a tree.
-/

namespace MerkleSignature.Hypertree

/-- The largest height of a whole hypertree. -/
def maxTotalHeight : Nat := 60

/-- The parameters of a hypertree key. -/
structure Params where
  digest : Digest
  width : Winternitz.Width
  /-- The height of each tree. -/
  treeHeight : Nat
  layers : Nat
  minKeyHeight_le : minKeyHeight ≤ treeHeight
  treeHeight_le : treeHeight ≤ maxTreeHeight
  layers_pos : 0 < layers
  totalHeight_le : treeHeight * layers ≤ maxTotalHeight
  deriving DecidableEq

namespace Params

/-- Check a Winternitz parameter, a total height and a number of layers that divides it. -/
def new (digest : Digest) (totalHeight layers w : Nat) : Except Error Params := do
  let width ← Winternitz.Width.ofBase w
  if hlayers : 0 < layers ∧ totalHeight % layers = 0 then
    if htotal : totalHeight ≤ maxTotalHeight then
      let treeHeight := totalHeight / layers
      if hheight : minKeyHeight ≤ treeHeight ∧ treeHeight ≤ maxTreeHeight then
        return {
          digest, width, treeHeight, layers
          minKeyHeight_le := hheight.1
          treeHeight_le := hheight.2
          layers_pos := hlayers.1
          totalHeight_le := Nat.le_trans (Nat.div_mul_le_self totalHeight layers) htotal }
      else throw (.invalidTreeHeight treeHeight minKeyHeight maxTreeHeight)
    else throw (.invalidTreeHeight totalHeight minKeyHeight maxTotalHeight)
  else throw (.heightNotDivisible totalHeight layers)

/-- The security parameter. -/
def n (p : Params) : Nat := p.digest.size

/-- The height of the whole hypertree. -/
def totalHeight (p : Params) : Nat := p.treeHeight * p.layers

/-- The parameters of the one-time keys. -/
def oneTime (p : Params) : Winternitz.Params := .ofDigest p.digest p.width

/-- The number of signatures a key can make. -/
def capacity (p : Params) : Nat := 2 ^ p.totalHeight

/-- The size of the index field of keys and signatures. -/
def indexSize (p : Params) : Nat := (p.totalHeight + 7) / 8

/-- The size of an encoded public key. -/
def publicKeySize (p : Params) : Nat := 2 * p.n

/-- The size of an encoded private key. -/
def privateKeySize (p : Params) : Nat := p.indexSize + 4 * p.n

/-- The size of the share of one layer in a signature. -/
def reducedSize (p : Params) : Nat := p.oneTime.signatureSize + p.treeHeight * p.n

/-- The size of an encoded signature. -/
def signatureSize (p : Params) : Nat := p.indexSize + p.n + p.layers * p.reducedSize

end Params

end MerkleSignature.Hypertree
