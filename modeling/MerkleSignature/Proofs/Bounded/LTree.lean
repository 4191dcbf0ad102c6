import MerkleSignature.Proofs.Bounded.Digest
import MerkleSignature.Proofs.LTree

/-!
# L-trees within bounds

The elements of an L-tree stand one behind the other in one byte string. A round reads two of them,
writes their parent over a front element and moves a left-over element up; all of them are found by
multiplying their numbers by `n`. The byte string is the concatenation of the elements before and
after every step, so every element that a round names lies within it.
-/

namespace MerkleSignature

/-- Joins two neighbours within bounds. -/
abbrev BoundedJoin := (height index : Nat) → (left right : Bytes) → Bounded Bytes

namespace Digest

/-- Joining nodes of the L-tree of a leaf within bounds. -/
def boundedLTreeJoin (d : Digest) (publicSeed : Bytes) (position : TreePosition) (leaf : Nat) :
    BoundedJoin :=
  fun height index left right =>
    d.boundedJoinNodes left right publicSeed (position.lTreeAddress leaf height index)

end Digest

namespace LTree

open Bounded

/-- Write the parents of `count` pairs, from pair `index` on, to the front of the nodes. -/
def boundedJoinPairs (join : Nat → Bytes → Bytes → Bounded Bytes) (n : Nat) :
    (count index : Nat) → Bytes → Bounded Bytes
  | 0, _, nodes => pure nodes
  | count + 1, index, nodes => do
    let left ← slice nodes (2 * index * n) ((2 * index + 1) * n)
    let right ← slice nodes ((2 * index + 1) * n) ((2 * index + 2) * n)
    let parent ← join index left right
    let nodes ← copy nodes (index * n) ((index + 1) * n) parent
    boundedJoinPairs join n count (index + 1) nodes

/-- One round on the first `length` nodes: join the pairs and move up a left-over node. -/
def boundedRound (join : Nat → Bytes → Bytes → Bounded Bytes) (n length : Nat) (nodes : Bytes) :
    Bounded Bytes := do
  let nodes ← boundedJoinPairs join n (length / 2) 0 nodes
  if length % 2 = 1 then
    let last ← subtract length 1
    let node ← slice nodes (last * n) (length * n)
    copy nodes (length / 2 * n) (length / 2 * n + node.length) node
  else return nodes

/-- Run rounds on the first `length` nodes until one of them is left. -/
def boundedCompress (join : BoundedJoin) (n height length : Nat) (nodes : Bytes) :
    Bounded Bytes :=
  if length ≤ 1 then pure nodes
  else do
    let nodes ← boundedRound (join height) n length nodes
    boundedCompress join n (← addWord height 1) ((length + 1) / 2) nodes
termination_by length

/-- The leaf that an L-tree makes of a public key of `n`-byte elements. -/
def boundedRoot (d : Digest) (publicKey publicSeed : Bytes) (position : TreePosition)
    (leaf : Nat) : Bounded Bytes := do
  let length ← divide publicKey.length d.size
  if publicKey = [] ∨ publicKey.length % d.size ≠ 0 then
    throw (.invalidLength "WOTS+ public key"
      (d.size * max ((publicKey.length + d.size - 1) / d.size) 1) publicKey.length)
  else
    let nodes ←
      boundedCompress (d.boundedLTreeJoin publicSeed position leaf) d.size 0 length publicKey
    return nodes.take d.size

variable {n : Nat}

/-- The elements of a buffer, one behind the other. -/
def flat (buffer : Array Bytes) : Bytes := buffer.toList.flatten

/-- Nodes are the elements of a uniform buffer of a given size, one behind the other. -/
def LaidOut (n size : Nat) (nodes : Bytes) (buffer : Array Bytes) : Prop :=
  nodes = flat buffer ∧ buffer.size = size ∧ Uniform n buffer

/-- Two computations arrive at the same node of `n` bytes. -/
def SameNode (n : Nat) (node node' : Bytes) : Prop := node = node' ∧ node'.length = n

section Buffers

variable {buffer : Array Bytes} {i : Nat}

/-- An element of a buffer is that of its list. -/
theorem getElem_toList_eq_getD (hi : i < buffer.toList.length) :
    buffer.toList[i] = buffer.getD i [] := by
  rw [Array.getElem_toList, Array.getD_eq_getD_getElem?, Array.getElem?_eq_getElem hi,
    Option.getD_some]

variable (hbuffer : Uniform n buffer)
include hbuffer

theorem Uniform.length_of_mem_toList {element : Bytes} (h : element ∈ buffer.toList) :
    element.length = n :=
  hbuffer element (Array.mem_toList_iff.1 h)

variable (hi : i < buffer.size)
include hi

/-- An element is read where it stands. -/
theorem slice_flat : slice (flat buffer) (i * n) ((i + 1) * n) = pure (buffer.getD i []) := by
  rw [flat, slice_flatten (fun _ => hbuffer.length_of_mem_toList) hi, getElem_toList_eq_getD]

/-- An element is replaced where it stands. -/
theorem copy_flat {element : Bytes} (helement : element.length = n) :
    copy (flat buffer) (i * n) ((i + 1) * n) element =
      pure (flat (buffer.setIfInBounds i element)) := by
  rw [flat, copy_flatten (fun _ => hbuffer.length_of_mem_toList) hi helement, flat,
    Array.toList_setIfInBounds]

omit hi in
/-- The first element stands at the front. -/
theorem take_flat (hsome : 0 < buffer.size) : (flat buffer).take n = buffer.getD 0 [] := by
  have hfirst := take_drop_flatten (fun _ => hbuffer.length_of_mem_toList) hsome
  rw [Nat.zero_mul, List.drop_zero] at hfirst
  rw [flat, hfirst, getElem_toList_eq_getD]

end Buffers

section Rounds

variable {size : Nat} {nodes : Bytes} {buffer : Array Bytes}
  {pair : Nat → Bytes → Bytes → Except Error Bytes}
  {boundedPair : Nat → Bytes → Bytes → Bounded Bytes}
  (hpair : ∀ index left right,
    Simulates (SameNode n) (boundedPair index left right) (pair index left right))
include hpair

/-- Pairs that lie in the buffer are joined there. -/
theorem boundedJoinPairs_simulates {count index : Nat} (h : LaidOut n size nodes buffer)
    (hfit : 2 * (index + count) ≤ size) :
    Simulates (LaidOut n size) (boundedJoinPairs boundedPair n count index nodes)
      (joinPairs pair count index buffer) := by
  induction count generalizing index nodes buffer with
  | zero => exact simulates_pure h
  | succ count ih =>
    obtain ⟨rfl, rfl, hbuffer⟩ := h
    rw [boundedJoinPairs, slice_flat hbuffer (by omega), pure_bind, slice_flat hbuffer (by omega),
      pure_bind, joinPairs]
    refine (hpair ..).bind fun parent _ hparent => ?_
    obtain ⟨rfl, hlength⟩ := hparent
    rw [copy_flat hbuffer (by omega) hlength, pure_bind]
    exact ih ⟨rfl, Array.size_setIfInBounds, hbuffer.setIfInBounds index hlength⟩ (by omega)

/-- A round stays within the buffer. -/
theorem boundedRound_simulates {length : Nat} (h : LaidOut n size nodes buffer)
    (hlength : length ≤ size) :
    Simulates (LaidOut n size) (boundedRound boundedPair n length nodes)
      (round pair length buffer) := by
  refine (boundedJoinPairs_simulates hpair h (by omega)).bind fun _ joined hjoined => ?_
  obtain ⟨rfl, rfl, hbuffer⟩ := hjoined
  split
  next hodd =>
    obtain ⟨last, rfl⟩ : ∃ last, length = last + 1 := ⟨length - 1, by omega⟩
    have hnode := hbuffer.length_getD (show last < joined.size by omega)
    rw [subtract_eq (by omega), pure_bind, Nat.add_sub_cancel, slice_flat hbuffer (by omega),
      pure_bind, hnode, ← Nat.succ_mul, copy_flat hbuffer (by omega) hnode]
    exact simulates_pure ⟨rfl, Array.size_setIfInBounds, hbuffer.setIfInBounds _ hnode⟩
  next => exact simulates_pure ⟨rfl, rfl, hbuffer⟩

end Rounds

/-- The rounds of an L-tree stay within the buffer. -/
theorem boundedCompress_simulates {join : Join} {boundedJoin : BoundedJoin}
    (hjoin : ∀ height index left right,
      Simulates (SameNode n) (boundedJoin height index left right) (join height index left right))
    {size height length : Nat} {nodes : Bytes} {buffer : Array Bytes}
    (h : LaidOut n size nodes buffer) (hlength : length ≤ size)
    (hheight : height + length < 2 ^ 32) :
    Simulates (LaidOut n size) (boundedCompress boundedJoin n height length nodes)
      (compress join height length buffer) := by
  induction length using Nat.strongRecOn generalizing height nodes buffer with
  | ind length ih =>
    rw [boundedCompress, compress]
    split
    next => exact simulates_pure h
    next hmore =>
      refine (boundedRound_simulates (hjoin height) h hlength).bind fun _ _ hround => ?_
      rw [addWord_eq (by omega), pure_bind]
      exact ih ((length + 1) / 2) (by omega) hround (by omega) (by omega)

/-- An L-tree stays within its bounds, whatever public key it is given. -/
theorem boundedRoot_eq {d : Digest} {publicKey : Bytes} (hshort : publicKey.length < 2 ^ 32)
    (publicSeed : Bytes) (position : TreePosition) (leaf : Nat) :
    boundedRoot d publicKey publicSeed position leaf =
      liftM (root d publicKey publicSeed position leaf) := by
  rw [boundedRoot, divide_eq (Nat.ne_of_gt d.size_pos), pure_bind]
  split
  next hunfit =>
    rw [root, if_pos hunfit]
    rfl
  next hfit =>
    obtain ⟨hne, hdvd⟩ : publicKey ≠ [] ∧ d.size ∣ publicKey.length := by
      rw [not_or, Decidable.not_not] at hfit
      exact ⟨hfit.1, Nat.dvd_of_mod_eq_zero hfit.2⟩
    have hcount : (chunks d.size publicKey).length = publicKey.length / d.size := by
      rw [chunks, length_pieces]
    have hheight : 0 + publicKey.length / d.size < 2 ^ 32 := by
      rw [Nat.zero_add]
      exact Nat.lt_of_le_of_lt (Nat.div_le_self ..) hshort
    have hlaid : LaidOut d.size (publicKey.length / d.size) publicKey
        (chunks d.size publicKey).toArray :=
      ⟨(flatten_chunks d.size_pos (Nat.div_mul_cancel hdvd).symm).symm, hcount,
        uniform_chunks d publicKey⟩
    have hjoin (height index : Nat) (left right : Bytes) :
        Simulates (SameNode d.size)
          (d.boundedLTreeJoin publicSeed position leaf height index left right)
          (d.lTreeJoin publicSeed position leaf height index left right) := by
      rw [Digest.boundedLTreeJoin, Digest.boundedJoinNodes_eq]
      exact simulates_lift fun parent h => ⟨rfl, Digest.length_of_joinNodes h⟩
    rw [root_of_fit hne hdvd, hcount]
    refine ((boundedCompress_simulates hjoin hlaid (Nat.le_refl _) hheight).bind
      fun nodes buffer hnodes => ?_).eq_lift
    obtain ⟨rfl, hsize, hbuffer⟩ := hnodes
    exact simulates_pure
      (take_flat hbuffer (by rw [hsize, ← hcount]; exact length_chunks_pos hne hdvd))

end LTree

end MerkleSignature
