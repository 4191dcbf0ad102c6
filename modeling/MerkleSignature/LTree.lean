import MerkleSignature.Join

/-!
# L-trees

An L-tree compresses the elements of a one-time public key into one leaf of the hash tree. In every
round neighbouring elements are joined in pairs, and an element left over at the end moves up as it
is, until one element remains. The rounds work in one buffer: a parent is written over elements
that are no longer needed, and only a shrinking front part of the buffer is in use.
-/

namespace MerkleSignature.LTree

/-- Write the parents of `count` pairs, from pair `index` on, to the front of the buffer. -/
def joinPairs (join : Nat → Bytes → Bytes → Except Error Bytes) :
    (count index : Nat) → Array Bytes → Except Error (Array Bytes)
  | 0, _, buffer => .ok buffer
  | count + 1, index, buffer => do
    let parent ← join index (buffer.getD (2 * index) []) (buffer.getD (2 * index + 1) [])
    joinPairs join count (index + 1) (buffer.setIfInBounds index parent)

/-- One round on the first `length` elements: join the pairs and move up a left-over element. -/
def round (join : Nat → Bytes → Bytes → Except Error Bytes) (length : Nat) (buffer : Array Bytes) :
    Except Error (Array Bytes) := do
  let joined ← joinPairs join (length / 2) 0 buffer
  return if length % 2 = 1 then
    joined.setIfInBounds (length / 2) (joined.getD (length - 1) [])
  else joined

/-- Run rounds on the first `length` elements until one of them is left. The join function is given
the height of the round and the index of the parent. -/
def compress (join : Join) (height length : Nat) (buffer : Array Bytes) :
    Except Error (Array Bytes) :=
  if length ≤ 1 then .ok buffer
  else do
    let buffer ← round (join height) length buffer
    compress join (height + 1) ((length + 1) / 2) buffer
termination_by length

/-- The leaf that an L-tree makes of a public key of `n`-byte elements. -/
def root (d : Digest) (publicKey publicSeed : Bytes) (position : TreePosition) (leaf : Nat) :
    Except Error Bytes :=
  if publicKey = [] ∨ publicKey.length % d.size ≠ 0 then
    .error (.invalidLength "WOTS+ public key"
      (d.size * max ((publicKey.length + d.size - 1) / d.size) 1) publicKey.length)
  else do
    let elements := chunks d.size publicKey
    let buffer ← compress (d.lTreeJoin publicSeed position leaf) 0 elements.length elements.toArray
    return buffer.getD 0 []

end MerkleSignature.LTree
