import MerkleSignature.Join
import MerkleSignature.Proofs.Bounded
import MerkleSignature.Proofs.Digest.Keyed

/-!
# Keyed hashing within bounds

Addresses, the numbers of the keyed functions, the inputs of `H` and the keys of `H_msg` are put
together in buffers that are large enough for the largest digest. Whatever lengths the keys and the
inputs have, nothing is written into such a buffer before its length has been checked, so the
functions refuse what they refuse and stay within their bounds.
-/

namespace MerkleSignature

open Bounded

/-- The largest output of a digest, for which the buffers have room. -/
def maxDigestSize : Nat := 64

/-- The buffers have room for the output of every digest. -/
theorem Digest.size_le (d : Digest) : d.size ≤ maxDigestSize := by
  cases d <;> decide

/-- Encode an address in a buffer of 32 bytes. -/
def Address.boundedEncode (address : Address) : Bounded Bytes :=
  let (first, second, third) := address.target.words
  copyFields (List.replicate size 0) 0 [
    (4, Bytes.toBigEndian 4 address.position.layer.toNat),
    (12, Bytes.toBigEndian 8 address.position.tree.toNat),
    (16, Bytes.toBigEndian 4 address.target.typeWord.toNat),
    (20, Bytes.toBigEndian 4 first.toNat),
    (24, Bytes.toBigEndian 4 second.toNat),
    (28, Bytes.toBigEndian 4 third.toNat),
    (32, Bytes.toBigEndian 4 address.keyAndMask.toNat)]

/-- The fields of an address fill its buffer. -/
theorem Address.boundedEncode_eq (address : Address) :
    address.boundedEncode = pure address.encode := by
  unfold boundedEncode
  dsimp only
  rw [copyFields_front address.encode (by simp [Fill])
    (by simp [encode, Bytes.prependBigEndian_eq_append]) (by simp)]
  simp [size]

namespace Digest

variable (d : Digest)

/-- The keyed hash, with a buffer for the number of the function and room for four parts. -/
def boundedKeyed (purpose : Purpose) (key : Bytes) (inputs : List Bytes) : Bounded Bytes := do
  let buffer ← copyFields (List.replicate maxDigestSize 0) 0
    [(d.size, Bytes.toBigEndian d.size purpose.number)]
  let number ← slice buffer 0 d.size
  let parts ← copy [number, key, [], []] 2 (2 + inputs.length) inputs
  let parts ← slice parts 0 (2 + inputs.length)
  return d.hash parts.flatten

/-- `F` within bounds. -/
def boundedChainHash (key input : Bytes) : Bounded Bytes := do
  checkLength "F key" key d.size
  checkLength "F input" input d.size
  d.boundedKeyed .chain key [input]

/-- `H` within bounds. -/
def boundedNodeHash (key input : Bytes) : Bounded Bytes := do
  checkLength "H key" key d.size
  checkLength "H input" input (2 * d.size)
  d.boundedKeyed .node key [input]

/-- `H_msg` within bounds. -/
def boundedMessageHash (key input : Bytes) : Bounded Bytes := do
  checkLength "H_msg key" key (3 * d.size)
  d.boundedKeyed .message key [input]

/-- `PRF` within bounds. -/
def boundedPrf (key input : Bytes) : Bounded Bytes := do
  checkLength "PRF key" key d.size
  checkLength "PRF address" input Address.size
  d.boundedKeyed .derive key [input]

/-- `PRF` of an encoded address within bounds. -/
def boundedPrfAddress (key : Bytes) (address : Address) : Bounded Bytes := do
  d.boundedPrf key (← address.boundedEncode)

/-- Join two nodes in a buffer of two nodes, which are masked there. -/
def boundedJoinNodes (left right publicSeed : Bytes) (address : Address) : Bounded Bytes := do
  checkLength "left node" left d.size
  checkLength "right node" right d.size
  let key ← d.boundedPrfAddress publicSeed (address.withKeyAndMask 0)
  let leftMask ← d.boundedPrfAddress publicSeed (address.withKeyAndMask 1)
  let rightMask ← d.boundedPrfAddress publicSeed (address.withKeyAndMask 2)
  let input ← copyFields (List.replicate (2 * maxDigestSize) 0) 0
    [(d.size, left), (2 * d.size, right)]
  let input ← mask input 0 d.size leftMask
  let input ← mask input d.size (2 * d.size) rightMask
  d.boundedNodeHash key (← slice input 0 (2 * d.size))

/-- The block that is signed for a message, with a buffer for the key of `H_msg`. -/
def boundedMessageDigest (randomness root : Bytes) (index : Nat) (message : Bytes) :
    Bounded Bytes := do
  checkLength "randomness" randomness d.size
  checkLength "root" root d.size
  let key ← copyFields (List.replicate (3 * maxDigestSize) 0) 0
    [(d.size, randomness), (2 * d.size, root), (3 * d.size, Bytes.toBigEndian d.size index)]
  d.boundedMessageHash (← slice key 0 (3 * d.size)) message

variable {d} {key input : Bytes}

/-- The number of a function fits its buffer, and its key and input fit beside it. -/
theorem boundedKeyed_eq (purpose : Purpose) (key input : Bytes) :
    d.boundedKeyed purpose key [input] = pure (d.keyed purpose key input) := by
  have hsize := d.size_le
  have hparts (number : Bytes) : copy [number, key, [], []] 2 (2 + [input].length) [input] =
      pure [number, key, input, []] := rfl
  have hread (number : Bytes) : slice [number, key, input, []] 0 (2 + [input].length) =
      pure [number, key, input] := rfl
  rw [boundedKeyed, copyFields_front (Bytes.toBigEndian d.size purpose.number)
    (by simp [Fill]) (by simp) (by simpa), pure_bind, slice_front (Bytes.length_toBigEndian ..),
    pure_bind, hparts, pure_bind, hread, pure_bind, keyed, framed,
    Bytes.prependBigEndian_eq_append]
  simp

theorem boundedChainHash_eq (key input : Bytes) :
    d.boundedChainHash key input = liftM (d.chainHash key input) := by
  rw [boundedChainHash, boundedKeyed_eq]
  exact lift_bind_eq fun _ _ => lift_bind_eq fun _ _ => rfl

theorem boundedNodeHash_eq (key input : Bytes) :
    d.boundedNodeHash key input = liftM (d.nodeHash key input) := by
  rw [boundedNodeHash, boundedKeyed_eq]
  exact lift_bind_eq fun _ _ => lift_bind_eq fun _ _ => rfl

theorem boundedMessageHash_eq (key input : Bytes) :
    d.boundedMessageHash key input = liftM (d.messageHash key input) := by
  rw [boundedMessageHash, boundedKeyed_eq]
  exact lift_bind_eq fun _ _ => rfl

theorem boundedPrfAddress_eq (key : Bytes) (address : Address) :
    d.boundedPrfAddress key address = liftM (d.prfAddress key address) := by
  rw [boundedPrfAddress, Address.boundedEncode_eq, pure_bind, boundedPrf, boundedKeyed_eq]
  exact lift_bind_eq fun _ _ => lift_bind_eq fun _ _ => rfl

/-- Two nodes and their masks fill the front of the buffer. -/
theorem boundedJoinNodes_eq (left right publicSeed : Bytes) (address : Address) :
    d.boundedJoinNodes left right publicSeed address =
      liftM (d.joinNodes left right publicSeed address) := by
  have hsize := d.size_le
  simp only [boundedJoinNodes, boundedPrfAddress_eq, boundedNodeHash_eq]
  refine lift_bind_eq fun _ hleft => lift_bind_eq fun _ hright => ?_
  refine lift_bind_eq fun key _ => lift_bind_eq fun leftMask hleftMask => ?_
  refine lift_bind_eq fun rightMask hrightMask => ?_
  replace hleft := length_eq_of_checkLength hleft
  replace hright := length_eq_of_checkLength hright
  replace hleftMask := length_of_prf hleftMask
  replace hrightMask := length_of_prf hrightMask
  rw [copyFields_front (left ++ right) (by simp [Fill]; omega) (by simp)
      (by simp; omega), pure_bind, List.append_assoc, mask_front hleft (by omega), pure_bind,
    mask_eq (by simp; omega) (by omega) (by omega), pure_bind, ← List.append_assoc,
    slice_front (by simp; omega), pure_bind]

/-- The randomness, the root and the index fill the front of the buffer. -/
theorem boundedMessageDigest_eq (randomness root : Bytes) (index : Nat) (message : Bytes) :
    d.boundedMessageDigest randomness root index message =
      liftM (d.messageDigest randomness root index message) := by
  have hsize := d.size_le
  have hindex : (Bytes.toBigEndian d.size index).length = d.size := Bytes.length_toBigEndian ..
  simp only [boundedMessageDigest, boundedMessageHash_eq]
  refine lift_bind_eq fun _ hrandomness => lift_bind_eq fun _ hroot => ?_
  replace hrandomness := length_eq_of_checkLength hrandomness
  replace hroot := length_eq_of_checkLength hroot
  rw [copyFields_front (randomness ++ root ++ Bytes.toBigEndian d.size index)
      (by simp [Fill]; omega) (by simp) (by simp; omega), pure_bind,
    slice_front (by simp; omega), pure_bind]

end Digest

end MerkleSignature
