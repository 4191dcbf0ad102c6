import MerkleSignature.Address
import MerkleSignature.Digest

/-!
# Keyed hash functions

The scheme uses four keyed functions, all derived from one digest. The byte string that is hashed
is the number of the function, written into `n` bytes, then the key, then the input. Keys, and all
inputs but that of the message hash, have fixed lengths, and other lengths are refused.
-/

namespace MerkleSignature

/-- The four keyed functions. -/
inductive Purpose where
  /-- `F`, one step on a hash chain. -/
  | chain
  /-- `H`, joining two nodes. -/
  | node
  /-- `H_msg`, hashing the message that is signed. -/
  | message
  /-- `PRF`, deriving keys, masks and secrets. -/
  | derive
  deriving DecidableEq

/-- The number of each function. -/
def Purpose.number : Purpose → Nat
  | chain => 0
  | node => 1
  | message => 2
  | derive => 3

namespace Digest

/-- The byte string that is hashed for a keyed call. -/
def framed (d : Digest) (purpose : Purpose) (key input : Bytes) : Bytes :=
  Bytes.prependBigEndian d.size purpose.number (key ++ input)

/-- The keyed hash without length checks. -/
def keyed (d : Digest) (purpose : Purpose) (key input : Bytes) : Bytes :=
  d.hash (d.framed purpose key input)

/-- A keyed hash is as long as the output of its digest. -/
@[simp] theorem length_keyed (d : Digest) (purpose : Purpose) (key input : Bytes) :
    (d.keyed purpose key input).length = d.size := by
  simp [keyed]

/-- `F`: an `n`-byte key and an `n`-byte input. -/
def chainHash (d : Digest) (key input : Bytes) : Except Error Bytes := do
  checkLength "F key" key d.size
  checkLength "F input" input d.size
  return d.keyed .chain key input

/-- `H`: an `n`-byte key and a `2n`-byte input. -/
def nodeHash (d : Digest) (key input : Bytes) : Except Error Bytes := do
  checkLength "H key" key d.size
  checkLength "H input" input (2 * d.size)
  return d.keyed .node key input

/-- `H_msg`: a `3n`-byte key and an input of any length. -/
def messageHash (d : Digest) (key input : Bytes) : Except Error Bytes := do
  checkLength "H_msg key" key (3 * d.size)
  return d.keyed .message key input

/-- `PRF`: an `n`-byte key and 32 bytes of input. -/
def prf (d : Digest) (key input : Bytes) : Except Error Bytes := do
  checkLength "PRF key" key d.size
  checkLength "PRF address" input Address.size
  return d.keyed .derive key input

/-- `PRF` of an encoded address. -/
def prfAddress (d : Digest) (key : Bytes) (address : Address) : Except Error Bytes :=
  d.prf key address.encode

/-- Join two nodes: `H` of the masked nodes, under a key and masks derived from the public seed and
the address with key-and-mask words 0, 1 and 2. -/
def joinNodes (d : Digest) (left right publicSeed : Bytes) (address : Address) :
    Except Error Bytes := do
  checkLength "left node" left d.size
  checkLength "right node" right d.size
  let key ← d.prfAddress publicSeed (address.withKeyAndMask 0)
  let leftMask ← d.prfAddress publicSeed (address.withKeyAndMask 1)
  let rightMask ← d.prfAddress publicSeed (address.withKeyAndMask 2)
  d.nodeHash key (Bytes.xor left leftMask ++ Bytes.xor right rightMask)

/-- The `n` bytes that are signed for a message: `H_msg` under the randomness, the root and the
index of the signature. -/
def messageDigest (d : Digest) (randomness root : Bytes) (index : Nat) (message : Bytes) :
    Except Error Bytes := do
  checkLength "randomness" randomness d.size
  checkLength "root" root d.size
  d.messageHash (randomness ++ root ++ Bytes.toBigEndian d.size index) message

/-- The randomness of the signature with a given index. -/
def messageRandomness (d : Digest) (prfKey : Bytes) (index : Nat) : Except Error Bytes :=
  d.prf prfKey (Bytes.toBigEndian Address.size index)

end Digest

end MerkleSignature
