import MerkleSignature.Bytes.BigEndian
import MerkleSignature.Bytes.Digits
import MerkleSignature.Winternitz.Params

/-!
# Message digits

The digits that a one-time signature reveals positions for: the digits of the block, then the
digits of their checksum. Raising a message digit lowers the checksum, so no block has digits that
are all at least those of another block.
-/

namespace MerkleSignature.Winternitz

/-- How far the digits are from their largest value, added up in a 32-bit word. -/
def checksum (w : Nat) (digits : List Nat) : UInt32 :=
  (digits.map fun digit => UInt32.ofNat w - 1 - UInt32.ofNat digit).foldr (· + ·) 0

/-- The checksum digits of message digits, read from the shifted checksum. -/
def Params.checksumDigits (p : Params) (digits : List Nat) : List Nat :=
  Bytes.digits p.digitBits p.checksumLength
    (Bytes.toBigEndian p.checksumBytes
      (checksum p.w digits <<< UInt32.ofNat p.checksumShift).toNat)

/-- The digits of a block of `n` bytes, followed by the digits of their checksum. -/
def Params.messageDigits (p : Params) (block : Bytes) : Except Error (List Nat) := do
  checkLength "WOTS+ message" block p.n
  let digits := Bytes.digits p.digitBits p.messageLength block
  return digits ++ p.checksumDigits digits

end MerkleSignature.Winternitz
