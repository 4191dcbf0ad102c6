import MerkleSignature.Error
import MerkleSignature.Bytes.BigEndian

/-!
# Hash addresses

Every keyed hash call is made under an address that says which tree of the hypertree, which node
and which purpose the call serves. An address is encoded as 32 bytes: the layer, the tree, a type
word, three words whose meaning depends on the type, and the key-and-mask word.
-/

namespace MerkleSignature

/-- Where a tree stands in a hypertree: its layer, counted from the bottom, and its number
there. -/
structure TreePosition where
  layer : UInt32 := 0
  tree : UInt64 := 0
  deriving DecidableEq

/-- What a hash call computes inside its tree. -/
inductive Address.Target where
  /-- One step on a chain of the one-time key of a leaf. -/
  | oneTime (leaf chain step : UInt32)
  /-- A node of the L-tree of a leaf: the height of its children and its index one level up. -/
  | lTree (leaf height index : UInt32)
  /-- A node of the hash tree: the height of its children and its index one level up. -/
  | hashTree (height index : UInt32)
  deriving DecidableEq

/-- The address of a hash call. -/
structure Address where
  position : TreePosition
  target : Address.Target
  /-- Separates the key and the masks that are derived for one call. -/
  keyAndMask : UInt32 := 0
  deriving DecidableEq

namespace TreePosition

/-- The address of a chain step, with key-and-mask word zero. -/
def oneTimeAddress (position : TreePosition) (leaf chain step : Nat) : Address :=
  { position, target := .oneTime (.ofNat leaf) (.ofNat chain) (.ofNat step) }

/-- The address of an L-tree node, with key-and-mask word zero. -/
def lTreeAddress (position : TreePosition) (leaf height index : Nat) : Address :=
  { position, target := .lTree (.ofNat leaf) (.ofNat height) (.ofNat index) }

/-- The address of a hash-tree node, with key-and-mask word zero. -/
def hashTreeAddress (position : TreePosition) (height index : Nat) : Address :=
  { position, target := .hashTree (.ofNat height) (.ofNat index) }

end TreePosition

namespace Address

/-- The size of an encoded address in bytes. -/
def size : Nat := 32

/-- The word that tells the three kinds of target apart. -/
def Target.typeWord : Target → UInt32
  | .oneTime .. => 0
  | .lTree .. => 1
  | .hashTree .. => 2

/-- The three words of a target; a hash-tree target leaves the first of them zero. -/
def Target.words : Target → UInt32 × UInt32 × UInt32
  | .oneTime leaf chain step => (leaf, chain, step)
  | .lTree leaf height index => (leaf, height, index)
  | .hashTree height index => (0, height, index)

/-- The same address with another key-and-mask word. -/
def withKeyAndMask (address : Address) (keyAndMask : UInt32) : Address :=
  { address with keyAndMask }

/-- The target of the same kind whose words are all zero. -/
def Target.erase : Target → Target
  | .oneTime .. => .oneTime 0 0 0
  | .lTree .. => .lTree 0 0 0
  | .hashTree .. => .hashTree 0 0

/-- What is left of an address when it is erased: only the kind of its target. -/
def erase (address : Address) : Address := { position := {}, target := address.target.erase }

/-- The 32-byte encoding. -/
def encode (address : Address) : Bytes :=
  let (first, second, third) := address.target.words
  Bytes.prependBigEndian 4 address.position.layer.toNat <|
    Bytes.prependBigEndian 8 address.position.tree.toNat <|
      Bytes.prependBigEndian 4 address.target.typeWord.toNat <|
        Bytes.prependBigEndian 4 first.toNat <|
          Bytes.prependBigEndian 4 second.toNat <|
            Bytes.prependBigEndian 4 third.toNat <|
              Bytes.toBigEndian 4 address.keyAndMask.toNat

/-- Every address is encoded in 32 bytes. -/
@[simp] theorem length_encode (address : Address) : address.encode.length = size := by
  simp [encode, Bytes.prependBigEndian_eq_append, size]

/-- The big-endian number in the `width` bytes from `offset` on. -/
def field (bytes : Bytes) (offset width : Nat) : Nat :=
  Bytes.ofBigEndian ((bytes.drop offset).take width)

/-- The target that a type word and three words stand for. -/
def Target.ofWords (typeWord first second third : Nat) : Except Error Target :=
  match typeWord with
  | 0 => .ok (.oneTime (.ofNat first) (.ofNat second) (.ofNat third))
  | 1 => .ok (.lTree (.ofNat first) (.ofNat second) (.ofNat third))
  | 2 =>
    if first = 0 then .ok (.hashTree (.ofNat second) (.ofNat third))
    else .error (.invalidEncoding "hash tree address padding" 0 4)
  | other => .error (.invalidAddressType other)

/-- Read an address from its 32-byte encoding. -/
def decode (bytes : Bytes) : Except Error Address := do
  checkLength "address" bytes size
  let target ← Target.ofWords (field bytes 12 4) (field bytes 16 4) (field bytes 20 4)
    (field bytes 24 4)
  return {
    position := { layer := .ofNat (field bytes 0 4), tree := .ofNat (field bytes 4 8) }
    target
    keyAndMask := .ofNat (field bytes 28 4) }

end Address

end MerkleSignature
