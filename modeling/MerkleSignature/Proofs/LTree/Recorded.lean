import MerkleSignature.LTree
import MerkleSignature.Proofs.Recorded

/-!
# L-trees with a record

An L-tree is computed with a record by running its rounds with a join that keeps one. What is
recorded is up to the join: the calls of the hash, or the addresses of the keys and masks that are
derived. If the values of the join are the parents in the L-tree, then the value of the recorded
L-tree is the root.
-/

namespace MerkleSignature.LTree

variable {κ : Type}

/-- Write the parents of `count` pairs to the front of the buffer, with a record. -/
def recordPairs (join : Nat → Bytes → Bytes → Recorded κ Bytes) :
    (count index : Nat) → Array Bytes → Recorded κ (Array Bytes)
  | 0, _, buffer => pure buffer
  | count + 1, index, buffer => do
    let parent ← join index (buffer.getD (2 * index) []) (buffer.getD (2 * index + 1) [])
    recordPairs join count (index + 1) (buffer.setIfInBounds index parent)

/-- One round on the first `length` elements, with a record. -/
def recordRound (join : Nat → Bytes → Bytes → Recorded κ Bytes) (length : Nat)
    (buffer : Array Bytes) : Recorded κ (Array Bytes) := do
  let joined ← recordPairs join (length / 2) 0 buffer
  return if length % 2 = 1 then
    joined.setIfInBounds (length / 2) (joined.getD (length - 1) [])
  else joined

/-- Run rounds on the first `length` elements until one of them is left, with a record. -/
def recordCompress (join : RecordedJoin κ) (height length : Nat) (buffer : Array Bytes) :
    Recorded κ (Array Bytes) :=
  if length ≤ 1 then pure buffer
  else do
    let buffer ← recordRound (join height) length buffer
    recordCompress join (height + 1) ((length + 1) / 2) buffer
termination_by length

/-- The leaf that an L-tree makes of a public key, with a record. -/
def recordRoot (d : Digest) (join : RecordedJoin κ) (publicKey : Bytes) : Recorded κ Bytes :=
  if publicKey = [] ∨ publicKey.length % d.size ≠ 0 then
    liftM (.error (.invalidLength "WOTS+ public key"
      (d.size * max ((publicKey.length + d.size - 1) / d.size) 1) publicKey.length) :
        Except Error Bytes)
  else do
    let elements := chunks d.size publicKey
    let buffer ← recordCompress join 0 elements.length elements.toArray
    return buffer.getD 0 []

theorem value_recordPairs (pair : Nat → Bytes → Bytes → Recorded κ Bytes) (count index : Nat)
    (buffer : Array Bytes) :
    (recordPairs pair count index buffer).value =
      joinPairs (fun index left right => (pair index left right).value) count index buffer := by
  induction count generalizing index buffer with
  | zero => rfl
  | succ count ih =>
    rw [recordPairs, joinPairs, Recorded.value_bind]
    exact bind_congr fun parent => ih (index + 1) _

theorem value_recordRound (pair : Nat → Bytes → Bytes → Recorded κ Bytes) (length : Nat)
    (buffer : Array Bytes) :
    (recordRound pair length buffer).value =
      round (fun index left right => (pair index left right).value) length buffer := by
  rw [recordRound, round, Recorded.value_bind, value_recordPairs]
  rfl

theorem value_recordCompress (join : RecordedJoin κ) (height length : Nat) (buffer : Array Bytes) :
    (recordCompress join height length buffer).value =
      compress (RecordedJoin.value join) height length buffer := by
  induction length using Nat.strongRecOn generalizing height buffer with
  | ind length ih =>
    rw [recordCompress, compress]
    split
    · rfl
    · rw [Recorded.value_bind, value_recordRound]
      exact bind_congr fun after => ih ((length + 1) / 2) (by omega) (height + 1) after

/-- The recorded L-tree is the L-tree. -/
theorem value_recordRoot {d : Digest} {join : RecordedJoin κ} {publicSeed : Bytes}
    {position : TreePosition} {leaf : Nat}
    (hjoin : RecordedJoin.value join = d.lTreeJoin publicSeed position leaf) (publicKey : Bytes) :
    (recordRoot d join publicKey).value = root d publicKey publicSeed position leaf := by
  rw [recordRoot, root]
  split
  · rfl
  · dsimp only
    rw [Recorded.value_bind, value_recordCompress, hjoin]
    rfl

end MerkleSignature.LTree
