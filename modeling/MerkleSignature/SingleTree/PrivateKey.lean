import MerkleSignature.KeyRecord
import MerkleSignature.KeyTree
import MerkleSignature.SingleTree.PublicKey
import MerkleSignature.Tree.Traversal

/-!
# Single-tree private keys

A private key makes one signature with each leaf, in order. The index moves on before anything is
computed, so that a leaf is never used twice, whatever happens afterwards. Beside its stored fields
a key keeps the traversal of its tree, which is rebuilt when a stored key is read.
-/

namespace MerkleSignature.SingleTree

/-- A private key. -/
structure PrivateKey where
  params : Params
  record : KeyRecord
  traversal : Traversal

namespace PrivateKey

/-- Keys are compared by their parameters and stored fields. -/
instance : BEq PrivateKey where
  beq a b := a.params == b.params && a.record == b.record

/-- The tree that given seeds generate. -/
def treeOf (p : Params) (seeds : SecretSeeds) (publicSeed : Bytes) : KeyTree where
  digest := p.digest
  width := p.width
  secretSeed := seeds.secretSeed
  publicSeed := publicSeed
  position := {}
  height := p.height

/-- The tree of the key. -/
def keyTree (key : PrivateKey) : KeyTree := treeOf key.params key.record.seeds key.record.publicSeed

/-- The public key. -/
def publicKey (key : PrivateKey) : PublicKey := ⟨key.params, key.record.root, key.record.publicSeed⟩

/-- The key that given seeds generate, about to make the signature with a given index. -/
def build (p : Params) (seeds : SecretSeeds) (publicSeed : Bytes) (index : Nat) :
    Except Error PrivateKey := do
  let (traversal, root) ← Traversal.restore (treeOf p seeds publicSeed).tree index
  return { params := p, record := ⟨index, seeds, publicSeed, root.value⟩, traversal }

/-- Make a key from given seeds. -/
def ofSeeds (p : Params) (seeds : SecretSeeds) (publicSeed : Bytes) : Except Error PrivateKey := do
  checkSeeds p.n seeds publicSeed
  build p seeds publicSeed 0

/-- Make a key from seeds drawn from a random source. -/
def generate {σ : Type} (p : Params) (source : RandomSource σ) (state : σ) :
    Except Error PrivateKey × σ :=
  let ((seeds, publicSeed), state) := source.drawSeeds p.n state
  (build p seeds publicSeed 0, state)

/-- The number of signatures the key can still make. -/
def remaining (key : PrivateKey) : Nat := key.params.leaves - key.record.index

/-- The key with another index. -/
def withIndex (key : PrivateKey) (index : Nat) : PrivateKey :=
  { key with record := { key.record with index } }

/-- The randomness and the one-time signature for a message at a given index. -/
def signParts (key : PrivateKey) (index : Nat) (message : Bytes) :
    Except Error (Bytes × Bytes) := do
  let digest := key.params.digest
  let randomness ← digest.messageRandomness key.record.seeds.prfKey index
  let block ← digest.messageDigest randomness key.record.root index message
  let oneTime ← key.keyTree.signLeaf block index
  return (randomness, oneTime)

/-- Sign a message with the next leaf. Whether it succeeds or fails, the key is returned as it is
afterwards. -/
def sign (key : PrivateKey) (message : Bytes) :
    Except (Error × PrivateKey) (Signature × PrivateKey) :=
  let index := key.record.index
  if index < key.params.leaves then
    let key := key.withIndex (index + 1)
    match key.signParts index message with
    | .error e => .error (e, key)
    | .ok (randomness, oneTime) =>
      match key.traversal.advance key.keyTree.tree index with
      | .error (e, traversal) => .error (e, { key with traversal })
      | .ok traversal =>
        .ok ({ index, randomness, reduced := ⟨oneTime, key.traversal.path⟩ },
          { key with traversal })
  else .error (.keyExhausted key.params.leaves, key)

/-- The stored fields; a key that has no signature left is not stored. -/
def encode (key : PrivateKey) : Except Error Bytes :=
  if key.record.index < key.params.leaves then .ok (key.record.encode key.params.indexSize)
  else .error (.keyExhausted key.params.leaves)

/-- Read a stored key and rebuild its traversal. The length, the index and the root must be
right. -/
def decode (p : Params) (bytes : Bytes) : Except Error PrivateKey :=
  if bytes.length = p.privateKeySize then do
    let record := KeyRecord.decode p.indexSize p.n bytes
    if record.index < p.leaves then do
      let key ← build p record.seeds record.publicSeed record.index
      if key.record.root = record.root then return key else throw .rootMismatch
    else throw (.indexOutOfRange record.index p.leaves)
  else .error (.invalidEncoding "XMSS private key" p.privateKeySize bytes.length)

/-- Erase the secret seeds and use up all indices. -/
def erase (key : PrivateKey) : PrivateKey :=
  { key with record := { key.record with seeds := ⟨[], []⟩, index := key.params.leaves } }

end PrivateKey

end MerkleSignature.SingleTree
