/-!
# Errors

Every operation that can refuse does so with one of these causes. The causes fall into four kinds,
by what the caller has to change: the parameter set, an argument, the state of a key, or an
encoding. The wording of each cause is fixed in one place, `Error.message`.
-/

namespace MerkleSignature

/-- What a caller has to change to avoid an error. -/
inductive Error.Kind where
  /-- The requested parameter set does not exist. -/
  | configuration
  /-- An argument has the wrong length or is out of its range. -/
  | invalidArgument
  /-- The operation is not allowed in the present state. -/
  | illegalState
  /-- An encoding could not be read. -/
  | parse
  deriving DecidableEq

/-- The causes for which an operation refuses. -/
inductive Error where
  /-- No digest has this name. -/
  | unsupportedDigest
  /-- The Winternitz parameter is neither 4 nor 16. -/
  | unsupportedWinternitzParameter (w : Nat)
  /-- The largest checksum is zero, as with blocks of no bytes, and zero has no leading digit. -/
  | zeroChecksum
  /-- A tree height is outside its range. -/
  | invalidTreeHeight (height min max : Nat)
  /-- The height of a hypertree is not a multiple of its number of layers. -/
  | heightNotDivisible (totalHeight layers : Nat)
  /-- No parameter set is registered under this identifier. -/
  | unknownIdentifier (identifier : Nat)
  /-- A byte string has the wrong length. -/
  | invalidLength (what : String) (expected actual : Nat)
  /-- A walk on a hash chain would pass the end of the chain. -/
  | chainOutOfRange (start steps w : Nat)
  /-- Two nodes that are to be joined have different heights. -/
  | heightMismatch (left right : Nat)
  /-- All one-time keys of a private key have been used. -/
  | keyExhausted (capacity : Nat)
  /-- A subtree builder was asked for a step before it was started or after it had finished. -/
  | builderNotRunning
  /-- A node of an authentication path is needed before it was computed. -/
  | authPathUnavailable (height : Nat)
  /-- An earlier call under the lock was aborted. -/
  | keyPoisoned
  /-- An encoding has the wrong length or a malformed field. -/
  | invalidEncoding (what : String) (expected actual : Nat)
  /-- An encoded index is not below its limit. -/
  | indexOutOfRange (index limit : Nat)
  /-- The type word of an address is unknown. -/
  | invalidAddressType (value : Nat)
  /-- The root stored in a private key is not the root that its seeds generate. -/
  | rootMismatch
  deriving DecidableEq

namespace Error

/-- The kind of each cause. -/
def kind : Error → Kind
  | unsupportedDigest | unsupportedWinternitzParameter .. | zeroChecksum
  | invalidTreeHeight .. | heightNotDivisible .. | unknownIdentifier .. => .configuration
  | invalidLength .. | chainOutOfRange .. | heightMismatch .. => .invalidArgument
  | keyExhausted .. | builderNotRunning | authPathUnavailable .. | keyPoisoned => .illegalState
  | invalidEncoding .. | indexOutOfRange .. | invalidAddressType .. | rootMismatch => .parse

/-- The lower-case hexadecimal digits of a number, at least eight of them. -/
def hex8 (x : Nat) : String :=
  let digits := Nat.toDigits 16 x
  String.ofList (List.replicate (8 - digits.length) '0' ++ digits)

/-- The last position of a chain in base `w`, as a 32-bit word. -/
def lastPosition (w : Nat) : Nat := (UInt32.ofNat w - 1).toNat

/-- The wording of each cause. -/
def message : Error → String
  | unsupportedDigest => "unsupported digest algorithm"
  | unsupportedWinternitzParameter w => s!"unsupported Winternitz parameter {w}: expected 4 or 16"
  | zeroChecksum => "the largest checksum is zero and has no digits"
  | invalidTreeHeight height min max => s!"invalid tree height {height}: expected {min}..={max}"
  | heightNotDivisible totalHeight layers =>
    s!"total height {totalHeight} is not divisible by {layers} layers"
  | unknownIdentifier identifier => s!"unknown parameter set oid 0x{hex8 identifier}"
  | invalidLength what expected actual =>
    s!"invalid {what} length: expected {expected}, got {actual}"
  | chainOutOfRange start steps w =>
    s!"chain of {steps} steps from {start} exceeds w - 1 = {lastPosition w}"
  | heightMismatch left right => s!"cannot combine nodes of height {left} and {right}"
  | keyExhausted capacity => s!"private key exhausted after {capacity} signatures"
  | builderNotRunning => "tree hash instance is not active"
  | authPathUnavailable height => s!"authentication node at height {height} is not available"
  | keyPoisoned => "signing key lock poisoned"
  | invalidEncoding what expected actual =>
    s!"invalid {what} encoding: expected {expected} bytes, got {actual}"
  | indexOutOfRange index limit => s!"index {index} out of range: limit {limit}"
  | invalidAddressType value => s!"invalid address type {value}"
  | rootMismatch => "private key root does not match its seeds"

end Error

/-- Refuse a byte string that does not have the expected length. -/
def checkLength (what : String) (data : List UInt8) (expected : Nat) : Except Error Unit :=
  if data.length = expected then .ok () else .error (.invalidLength what expected data.length)

end MerkleSignature
