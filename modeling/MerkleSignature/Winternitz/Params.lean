import MerkleSignature.Digest

/-!
# Winternitz parameters

A one-time key signs blocks of `n` bytes. The block is read in base `w`; each digit has one hash
chain of length `w - 1`. A checksum over the digits, written in base `w` as well, has further
chains, just enough for its largest value.

Sizes are 64-bit words and checksums are 32-bit words. Blocks can be asked for that are so large
that a size or the largest checksum exceeds its word; the word then holds it modulo its range, and
the number of checksum digits follows from the word.
-/

namespace MerkleSignature.Winternitz

/-- The supported Winternitz parameters. -/
inductive Width where
  | four
  | sixteen
  deriving DecidableEq

/-- The number of bits of a digit. -/
def Width.bits : Width → Nat
  | four => 2
  | sixteen => 4

/-- The Winternitz parameter `w`, the base in which digits are written. -/
def Width.base (width : Width) : Nat := 2 ^ width.bits

/-- The width for a Winternitz parameter. -/
def Width.ofBase (w : Nat) : Except Error Width :=
  match w with
  | 4 => .ok four
  | 16 => .ok sixteen
  | _ => .error (.unsupportedWinternitzParameter w)

/-- The number of digits of a block of `n` bytes. -/
def blockDigits (n : Nat) (width : Width) : Nat := 8 * n % 2 ^ 64 / width.bits

/-- The checksum of a block of `n` zero bytes, the largest there is, as a 32-bit word. -/
def largestChecksum (n : Nat) (width : Width) : Nat :=
  blockDigits n width * (width.base - 1) % 2 ^ 32

/-- The parameters of a one-time key: the size of the signed block, which is also the size of a
chain element, and the width of a digit. The largest checksum must have a leading digit. -/
structure Params where
  n : Nat
  width : Width
  largestChecksum_pos : 0 < largestChecksum n width
  deriving DecidableEq

namespace Params

/-- Check a block size and a Winternitz parameter. -/
def new (n w : Nat) : Except Error Params := do
  let width ← Width.ofBase w
  if largestChecksum_pos : 0 < largestChecksum n width then
    return { n, width, largestChecksum_pos }
  else throw .zeroChecksum

/-- The Winternitz parameter. -/
def w (p : Params) : Nat := p.width.base

/-- The number of bits of a digit. -/
def digitBits (p : Params) : Nat := p.width.bits

/-- The number of message digits. -/
def messageLength (p : Params) : Nat := blockDigits p.n p.width

/-- The number of checksum digits: as many as the largest checksum has in base `w`. -/
def checksumLength (p : Params) : Nat := Nat.log2 (largestChecksum p.n p.width) / p.digitBits + 1

/-- The number of chains. -/
def length (p : Params) : Nat := p.messageLength + p.checksumLength

/-- The number of bytes that hold the checksum digits. -/
def checksumBytes (p : Params) : Nat := (p.checksumLength * p.digitBits + 7) / 8

/-- The shift that moves the checksum digits to the front of their bytes. -/
def checksumShift (p : Params) : Nat := (8 - p.checksumLength * p.digitBits % 8) % 8

/-- The size of a one-time signature, and of a one-time public key, in bytes. -/
def signatureSize (p : Params) : Nat := p.length * p.n % 2 ^ 64

end Params

/-- Blocks as long as the output of a digest have a checksum. -/
theorem largestChecksum_size_pos (d : Digest) (width : Width) :
    0 < largestChecksum d.size width := by
  cases d <;> cases width <;> decide

/-- The parameters for blocks as long as the output of a digest. -/
def Params.ofDigest (d : Digest) (width : Width) : Params :=
  ⟨d.size, width, largestChecksum_size_pos d width⟩

/-- The signature size of such blocks fits its word. -/
theorem Params.signatureSize_ofDigest (d : Digest) (width : Width) :
    (ofDigest d width).signatureSize = (ofDigest d width).length * d.size := by
  cases d <;> cases width <;> decide

end MerkleSignature.Winternitz
