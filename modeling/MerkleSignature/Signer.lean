import MerkleSignature.Hypertree.PrivateKey
import MerkleSignature.SingleTree.PrivateKey

/-!
# Signers

A stateful signer changes its key with every signature. A call may succeed, fail with an error, or
be aborted halfway, in which case nothing is known about the key any more.
-/

namespace MerkleSignature

/-- What a call comes to: an answer, or nothing because the call was aborted. -/
inductive Call (α : Type) where
  | returned (answer : α)
  | aborted
  deriving DecidableEq

/-- A stateful signer. -/
structure Signer where
  Key : Type
  Signature : Type
  /-- Sign a message; the key is returned as it is afterwards, also with an error. -/
  sign : Key → Bytes → Call (Except Error Signature × Key)
  /-- The number of signatures a key can still make. -/
  remaining : Key → Call Nat

/-- Set the key that a step leaves behind apart from what the step returns. -/
def splitOutcome {κ α : Type} : Except (Error × κ) (α × κ) → Except Error α × κ
  | .ok (answer, key) => (.ok answer, key)
  | .error (e, key) => (.error e, key)

/-- Single-tree keys as a signer. -/
def SingleTree.signer : Signer where
  Key := SingleTree.PrivateKey
  Signature := SingleTree.Signature
  sign key message := .returned (splitOutcome (key.sign message))
  remaining key := .returned key.remaining

/-- Hypertree keys as a signer. -/
def Hypertree.signer : Signer where
  Key := Hypertree.PrivateKey
  Signature := Hypertree.Signature
  sign key message := .returned (splitOutcome (key.sign message))
  remaining key := .returned key.remaining

end MerkleSignature
