import MerkleSignature.Digest.Keyed
import MerkleSignature.Winternitz.Digits

/-!
# One-time signatures

A one-time key has one hash chain per digit. Its secret elements are the starts of the chains and
its public elements the ends; a signature holds, for each digit, the chain element at the position
that the digit names. From there a verifier walks on to the end of the chain, so a signature and a
block determine a public key, and the signature is valid when that is the right one.

All elements of a key are derived from one secret seed and the leaf that the key belongs to.
-/

namespace MerkleSignature.Winternitz

/-- One-time signatures over a digest, with the public seed from which keys and masks derive. -/
structure OneTime where
  digest : Digest
  width : Width
  publicSeed : Bytes

namespace OneTime

/-- The parameters: blocks and chain elements are as long as the digest's output. -/
def params (s : OneTime) : Params := .ofDigest s.digest s.width

/-- The element after position `step` of a chain, from the element at that position. -/
def next (s : OneTime) (position : TreePosition) (leaf chain step : Nat) (element : Bytes) :
    Except Error Bytes := do
  let address := position.oneTimeAddress leaf chain step
  let key ← s.digest.prfAddress s.publicSeed address
  let mask ← s.digest.prfAddress s.publicSeed (address.withKeyAndMask 1)
  s.digest.chainHash key (Bytes.xor element mask)

/-- Walk `steps` steps from position `start`. -/
def walk (s : OneTime) (position : TreePosition) (leaf chain : Nat) :
    (start steps : Nat) → Bytes → Except Error Bytes
  | _, 0, element => .ok element
  | start, steps + 1, element => do
    let following ← s.next position leaf chain start element
    s.walk position leaf chain (start + 1) steps following

/-- Walk `steps` steps from position `start`, within the chain and from an `n`-byte element. -/
def chain (s : OneTime) (element : Bytes) (start steps : Nat) (position : TreePosition)
    (leaf chain : Nat) : Except Error Bytes :=
  if s.params.w - 1 < start + steps then .error (.chainOutOfRange start steps s.params.w)
  else do
    checkLength "chain input" element s.params.n
    s.walk position leaf chain start steps element

/-- The seed of the one-time key of a leaf. -/
def leafSeed (d : Digest) (secretSeed : Bytes) (position : TreePosition) (leaf : Nat) :
    Except Error Bytes :=
  d.prfAddress secretSeed (position.oneTimeAddress leaf 0 0)

/-- The secret elements of a leaf's key, one per chain. -/
def secretElements (s : OneTime) (secretSeed : Bytes) (position : TreePosition) (leaf : Nat) :
    Except Error (List Bytes) := do
  let seed ← leafSeed s.digest secretSeed position leaf
  (List.range s.params.length).mapM fun i => s.digest.prf seed (Bytes.toBigEndian Address.size i)

/-- The secret key of a leaf: its secret elements, one after the other. -/
def secretKey (s : OneTime) (secretSeed : Bytes) (position : TreePosition) (leaf : Nat) :
    Except Error Bytes := do
  let elements ← s.secretElements secretSeed position leaf
  return elements.flatten

/-- The public key of a leaf: the ends of its chains, one after the other. -/
def publicKey (s : OneTime) (secretSeed : Bytes) (position : TreePosition) (leaf : Nat) :
    Except Error Bytes := do
  let elements ← s.secretElements secretSeed position leaf
  let ends ← elements.zipIdx.mapM fun (element, i) =>
    s.chain element 0 (s.params.w - 1) position leaf i
  return ends.flatten

/-- Sign a block with the key of a leaf. -/
def sign (s : OneTime) (block secretSeed : Bytes) (position : TreePosition) (leaf : Nat) :
    Except Error Bytes := do
  let digits ← s.params.messageDigits block
  let elements ← s.secretElements secretSeed position leaf
  let revealed ← (elements.zip digits).zipIdx.mapM fun ((element, digit), i) =>
    s.chain element 0 digit position leaf i
  return revealed.flatten

/-- The public key that a signature of a block commits to. -/
def recover (s : OneTime) (signature block : Bytes) (position : TreePosition) (leaf : Nat) :
    Except Error Bytes := do
  checkLength "WOTS+ signature" signature s.params.signatureSize
  let digits ← s.params.messageDigits block
  let ends ← ((chunks s.params.n signature).zip digits).zipIdx.mapM fun ((element, digit), i) =>
    s.chain element digit (s.params.w - 1 - digit) position leaf i
  return ends.flatten

/-- Check a signature of a block against a public key. -/
def verify (s : OneTime) (signature block publicKey : Bytes) (position : TreePosition)
    (leaf : Nat) : Except Error Bool := do
  let recovered ← s.recover signature block position leaf
  return recovered == publicKey

end OneTime

end MerkleSignature.Winternitz
