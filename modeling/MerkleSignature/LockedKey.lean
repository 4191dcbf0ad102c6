import MerkleSignature.Signer

/-!
# Locked keys

A key that several users share is kept under a lock, and every call runs alone. A call that is
aborted halfway may have used a one-time key without saying so; the lock is poisoned by it and
refuses every later call. An error that a call returns does not poison the lock.
-/

namespace MerkleSignature

/-- A key under a lock. -/
inductive LockedKey (s : Signer) where
  | holding (key : s.Key)
  | poisoned

namespace LockedKey

variable {s : Signer}

/-- Sign a message under the lock. -/
def sign (message : Bytes) : LockedKey s → Call (Except Error s.Signature) × LockedKey s
  | poisoned => (.returned (.error .keyPoisoned), poisoned)
  | holding key =>
    match s.sign key message with
    | .returned (answer, key) => (.returned answer, holding key)
    | .aborted => (.aborted, poisoned)

/-- The number of signatures the key can still make, asked under the lock. -/
def remaining : LockedKey s → Call (Except Error Nat) × LockedKey s
  | poisoned => (.returned (.error .keyPoisoned), poisoned)
  | holding key =>
    match s.remaining key with
    | .returned count => (.returned (.ok count), holding key)
    | .aborted => (.aborted, poisoned)

/-- Take the key out of the lock. -/
def unlock : LockedKey s → Except Error s.Key
  | poisoned => .error .keyPoisoned
  | holding key => .ok key

end LockedKey

end MerkleSignature
