import MerkleSignature.Hypertree.PublicKey
import MerkleSignature.KeyRecord
import MerkleSignature.KeyTree
import MerkleSignature.Tree.Traversal

/-!
# Hypertree private keys

A private key makes one signature for each global index, in order. The index moves on before
anything is computed, so that no leaf of the lowest layer is used twice.

Beside its stored fields a key keeps what saves work: the traversal of the lowest tree in use, and
for every upper layer the last signature made there, which stays the same until the layer below has
used up a tree. None of it is stored; it is rebuilt when it is needed.
-/

namespace MerkleSignature.Hypertree

/-- The lowest tree in use. -/
structure BottomTree where
  tree : Nat
  root : Bytes
  traversal : Traversal

/-- The last signature made on an upper layer, and the root of the tree that made it. -/
structure UpperSignature where
  tree : Nat
  leaf : Nat
  root : Bytes
  reduced : ReducedSignature

/-- A private key. -/
structure PrivateKey where
  params : Params
  record : KeyRecord
  bottom : Option BottomTree
  /-- One entry per layer above the lowest, the lower layers first. -/
  upper : List (Option UpperSignature)

namespace PrivateKey

/-- Keys are compared by their parameters and stored fields. -/
instance : BEq PrivateKey where
  beq a b := a.params == b.params && a.record == b.record

/-- The tree with a given layer and number that given seeds generate. -/
def treeOf (p : Params) (seeds : SecretSeeds) (publicSeed : Bytes) (layer tree : Nat) :
    KeyTree where
  digest := p.digest
  width := p.width
  secretSeed := seeds.secretSeed
  publicSeed := publicSeed
  position := positionOf layer tree
  height := p.treeHeight

/-- A tree of the key. -/
def keyTree (key : PrivateKey) (layer tree : Nat) : KeyTree :=
  treeOf key.params key.record.seeds key.record.publicSeed layer tree

/-- The public key. -/
def publicKey (key : PrivateKey) : PublicKey := ⟨key.params, key.record.root, key.record.publicSeed⟩

/-- The key that given seeds generate, about to make the signature with a given index. -/
def build (p : Params) (seeds : SecretSeeds) (publicSeed : Bytes) (index : Nat) :
    Except Error PrivateKey := do
  let root ← (treeOf p seeds publicSeed (p.layers - 1) 0).tree.subtreeRoot 0 p.treeHeight
  return {
    params := p
    record := ⟨index, seeds, publicSeed, root.value⟩
    bottom := none
    upper := List.replicate (p.layers - 1) none }

/-- Make a key from given seeds. -/
def ofSeeds (p : Params) (seeds : SecretSeeds) (publicSeed : Bytes) : Except Error PrivateKey := do
  checkSeeds p.n seeds publicSeed
  build p seeds publicSeed 0

/-- Make a key from seeds drawn from a random source. -/
def generate {σ : Type} (p : Params) (source : RandomSource σ) (state : σ) :
    Except Error PrivateKey × σ :=
  let ((seeds, publicSeed), state) := source.drawSeeds p.n state
  (build p seeds publicSeed 0, state)

/-- The number of signatures the key can still make. -/
def remaining (key : PrivateKey) : Nat := key.params.capacity - key.record.index

/-- The key with another index. -/
def withIndex (key : PrivateKey) (index : Nat) : PrivateKey :=
  { key with record := { key.record with index } }

/-- The lowest tree for a signature: the one in use if it is the right one, else a restored one. -/
def bottomFor (key : PrivateKey) (tree leaf : Nat) : Except Error BottomTree :=
  match key.bottom.filter (·.tree = tree) with
  | some bottom => .ok bottom
  | none => do
    let (traversal, root) ← Traversal.restore (key.keyTree 0 tree).tree leaf
    return ⟨tree, root.value, traversal⟩

/-- Sign a block on the lowest layer. Returns the signature and the lowest tree as it is
afterwards. -/
def signBottom (key : PrivateKey) (index : Nat) (block : Bytes) :
    Except (Error × Option BottomTree) (ReducedSignature × BottomTree) :=
  let (tree, leaf) := splitIndex index key.params.treeHeight 0
  let keyTree := key.keyTree 0 tree
  match key.bottomFor tree leaf with
  | .error e => .error (e, none)
  | .ok bottom =>
    match keyTree.signLeaf block leaf with
    | .error e => .error (e, some bottom)
    | .ok oneTime =>
      match bottom.traversal.advance keyTree.tree leaf with
      | .error (e, traversal) => .error (e, some { bottom with traversal })
      | .ok traversal => .ok (⟨oneTime, bottom.traversal.path⟩, { bottom with traversal })

/-- The signature of a root by a leaf of an upper layer: the last one if that leaf made it, else a
new one. -/
def upperFor (key : PrivateKey) (last : Option UpperSignature) (layer tree leaf : Nat)
    (below : Bytes) : Except Error UpperSignature :=
  match last.filter fun s => s.tree = tree ∧ s.leaf = leaf with
  | some s => .ok s
  | none => do
    let keyTree := key.keyTree layer tree
    let (root, path) ← keyTree.tree.rootAndPath leaf
    let oneTime ← keyTree.signLeaf below leaf
    return ⟨tree, leaf, root.value, ⟨oneTime, path⟩⟩

/-- Sign the root `below` on the layers from `layer` on. Returns the reduced signatures and the
entries of these layers as they are afterwards. -/
def signUpper (key : PrivateKey) (index : Nat) :
    (layer : Nat) → (below : Bytes) → (entries : List (Option UpperSignature)) →
      Except (Error × List (Option UpperSignature))
        (List ReducedSignature × List (Option UpperSignature))
  | _, _, [] => .ok ([], [])
  | layer, below, last :: rest =>
    let (tree, leaf) := splitIndex index key.params.treeHeight layer
    match key.upperFor last layer tree leaf below with
    | .error e => .error (e, last :: rest)
    | .ok s =>
      match key.signUpper index (layer + 1) s.root rest with
      | .error (e, rest) => .error (e, some s :: rest)
      | .ok (reduced, rest) => .ok (s.reduced :: reduced, some s :: rest)

/-- The randomness and the block to sign for a message at a given index. -/
def hashMessage (key : PrivateKey) (index : Nat) (message : Bytes) :
    Except Error (Bytes × Bytes) := do
  let digest := key.params.digest
  let randomness ← digest.messageRandomness key.record.seeds.prfKey index
  let block ← digest.messageDigest randomness key.record.root index message
  return (randomness, block)

/-- Sign a message with the next index. Whether it succeeds or fails, the key is returned as it is
afterwards. -/
def sign (key : PrivateKey) (message : Bytes) :
    Except (Error × PrivateKey) (Signature × PrivateKey) :=
  let index := key.record.index
  if index < key.params.capacity then
    let key := key.withIndex (index + 1)
    match key.hashMessage index message with
    | .error e => .error (e, key)
    | .ok (randomness, block) =>
      match key.signBottom index block with
      | .error (e, bottom) => .error (e, { key with bottom })
      | .ok (lowest, bottom) =>
        let key := { key with bottom := some bottom }
        match key.signUpper index 1 bottom.root key.upper with
        | .error (e, upper) => .error (e, { key with upper })
        | .ok (reduced, upper) =>
          .ok (⟨key.params, index, randomness, lowest :: reduced⟩, { key with upper })
  else .error (.keyExhausted key.params.capacity, key)

/-- The stored fields; a key that has no signature left is not stored. -/
def encode (key : PrivateKey) : Except Error Bytes :=
  if key.record.index < key.params.capacity then .ok (key.record.encode key.params.indexSize)
  else .error (.keyExhausted key.params.capacity)

/-- Read a stored key. The length, the index and the root must be right. -/
def decode (p : Params) (bytes : Bytes) : Except Error PrivateKey :=
  if bytes.length = p.privateKeySize then do
    let record := KeyRecord.decode p.indexSize p.n bytes
    if record.index < p.capacity then do
      let key ← build p record.seeds record.publicSeed record.index
      if key.record.root = record.root then return key else throw .rootMismatch
    else throw (.indexOutOfRange record.index p.capacity)
  else .error (.invalidEncoding "XMSS-MT private key" p.privateKeySize bytes.length)

/-- Erase the secret seeds, use up all indices and forget all signatures. -/
def erase (key : PrivateKey) : PrivateKey where
  params := key.params
  record := { key.record with seeds := ⟨[], []⟩, index := key.params.capacity }
  bottom := none
  upper := key.upper.map fun _ => none

end PrivateKey

end MerkleSignature.Hypertree
