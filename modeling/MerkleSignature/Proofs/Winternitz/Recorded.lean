import MerkleSignature.Proofs.Recorded
import MerkleSignature.Winternitz.OneTime

/-!
# Chains with a record

A chain is walked with a record by steps that keep one. What is recorded is up to the steps: the
calls of the hash, or the addresses of the keys and masks that are derived. If the values of the
steps are the next elements of the chain, then the value of the recorded walk is that of the walk.
-/

namespace MerkleSignature.Winternitz

/-- A step on a chain that keeps a record: the position of an element, and the element. -/
abbrev RecordedStep (κ : Type) := (step : Nat) → (element : Bytes) → Recorded κ Bytes

namespace OneTime

variable {κ : Type}

/-- Walk `steps` steps from position `start`, with a record. -/
def recordWalk (next : RecordedStep κ) : (start steps : Nat) → Bytes → Recorded κ Bytes
  | _, 0, element => pure element
  | start, steps + 1, element => do
    let following ← next start element
    recordWalk next (start + 1) steps following

/-- Walk within a chain and from an `n`-byte element, with a record. -/
def recordChain (s : OneTime) (next : RecordedStep κ) (element : Bytes) (start steps : Nat) :
    Recorded κ Bytes :=
  if s.params.w - 1 < start + steps then
    liftM (.error (.chainOutOfRange start steps s.params.w) : Except Error Bytes)
  else do
    checkLength "chain input" element s.params.n
    recordWalk next start steps element

variable {s : OneTime} {position : TreePosition} {leaf i : Nat} {next : RecordedStep κ}
  (hnext : ∀ step element, (next step element).value = s.next position leaf i step element)
include hnext

/-- The recorded walk is the walk. -/
theorem value_recordWalk (start steps : Nat) (element : Bytes) :
    (recordWalk next start steps element).value =
      s.walk position leaf i start steps element := by
  induction steps generalizing start element with
  | zero => rfl
  | succ steps ih =>
    rw [recordWalk, walk, Recorded.value_bind, hnext]
    exact bind_congr fun following => ih (start + 1) following

theorem value_recordChain (element : Bytes) (start steps : Nat) :
    (s.recordChain next element start steps).value =
      s.chain element start steps position leaf i := by
  rw [recordChain, chain]
  split
  · rfl
  · rw [Recorded.value_bind, Recorded.value_lift]
    exact bind_congr fun _ => value_recordWalk hnext start steps element

end OneTime

end MerkleSignature.Winternitz
