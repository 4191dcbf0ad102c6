import MerkleSignature.LockedKey

/-!
# A lock hides nothing before an abort and everything after it

The calls that a lock lets through are compared with the same calls on the key itself. As long as no
call is aborted, the answers are the same, errors included. After the first abort every call is
refused.

A lock that is poisoned has no key any more, so it is plain that it cannot ask the signer. In memory
the key is still there, in whatever state the aborted call has left it. So a lock is also modelled
as a key with a flag, which logs the calls that it makes to the signer.
-/

namespace MerkleSignature

/-- What a user can ask of a key. -/
inductive Request where
  | sign (message : Bytes)
  | remaining

/-- What a key answers. -/
inductive Answer (s : Signer) where
  | signature (signature : s.Signature)
  | remaining (count : Nat)

namespace Signer

variable (s : Signer)

/-- Ask a key for something; the key is returned as it is afterwards. -/
def ask (key : s.Key) : Request → Call (Except Error (Answer s) × s.Key)
  | .sign message =>
    match s.sign key message with
    | .returned (answer, key) => .returned (answer.map .signature, key)
    | .aborted => .aborted
  | .remaining =>
    match s.remaining key with
    | .returned count => .returned (.ok (.remaining count), key)
    | .aborted => .aborted

/-- Ask a key for one thing after the other until a call is aborted. The key is left over if none
is. -/
def serve (key : s.Key) : List Request → List (Call (Except Error (Answer s))) × Call s.Key
  | [] => ([], .returned key)
  | request :: requests =>
    match s.ask key request with
    | .returned (answer, key) =>
      let (answers, left) := serve key requests
      (.returned answer :: answers, left)
    | .aborted => ([.aborted], .aborted)

/-- The calls that are made when a key is asked for one thing after the other. The first one to be
aborted is the last one. -/
def calls (key : s.Key) : List Request → List (s.Key × Request)
  | [] => []
  | request :: requests =>
    (key, request) ::
      match s.ask key request with
      | .returned (_, key) => calls key requests
      | .aborted => []

end Signer

variable {s : Signer}

/-- The answer of a poisoned lock. -/
def refusal : Call (Except Error (Answer s)) := .returned (.error .keyPoisoned)

/-- What calls leave behind, or the error of a poisoned lock if one was aborted. -/
def Call.orPoisoned {α : Type} : Call α → Except Error α
  | .returned answer => .ok answer
  | .aborted => .error .keyPoisoned

namespace LockedKey

/-- Ask a locked key for something. -/
def ask (lock : LockedKey s) : Request → Call (Except Error (Answer s)) × LockedKey s
  | .sign message =>
    match lock.sign message with
    | (.returned answer, lock) => (.returned (answer.map .signature), lock)
    | (.aborted, lock) => (.aborted, lock)
  | .remaining =>
    match lock.remaining with
    | (.returned answer, lock) => (.returned (answer.map .remaining), lock)
    | (.aborted, lock) => (.aborted, lock)

/-- Ask a locked key for one thing after the other, whether calls are aborted or not. -/
def serve (lock : LockedKey s) :
    List Request → List (Call (Except Error (Answer s))) × LockedKey s
  | [] => ([], lock)
  | request :: requests =>
    let (answer, lock) := lock.ask request
    let (answers, lock) := lock.serve requests
    (answer :: answers, lock)

/-- A lock passes the answer of its key on, be it an error or not, and is poisoned by an abort. -/
theorem ask_holding (key : s.Key) (request : Request) :
    ask (.holding key) request =
      match s.ask key request with
      | .returned (answer, key) => (.returned answer, .holding key)
      | .aborted => (.aborted, .poisoned) := by
  cases request with
  | sign message =>
    simp only [ask, sign, Signer.ask]
    cases s.sign key message <;> rfl
  | remaining =>
    simp only [ask, remaining, Signer.ask]
    cases s.remaining key <;> rfl

/-- A poisoned lock refuses everything and stays poisoned. -/
theorem ask_poisoned (request : Request) :
    ask (.poisoned : LockedKey s) request = (refusal, .poisoned) := by
  cases request <;> rfl

/-- A poisoned lock refuses whatever it is asked for. -/
theorem serve_poisoned (requests : List Request) :
    serve (.poisoned : LockedKey s) requests =
      (List.replicate requests.length refusal, .poisoned) := by
  induction requests with
  | nil => rfl
  | cons request requests ih =>
    simp only [serve, ask_poisoned, ih]
    rfl

/-- Under a lock, the answers up to the first abort are those of the key itself, and all later ones
are refusals. -/
theorem serve_holding (key : s.Key) (requests : List Request) :
    (serve (.holding key) requests).1 =
      (s.serve key requests).1 ++
        List.replicate (requests.length - (s.serve key requests).1.length) refusal := by
  induction requests generalizing key with
  | nil => rfl
  | cons request requests ih =>
    rw [serve, ask_holding, Signer.serve]
    cases s.ask key request with
    | returned outcome =>
      change .returned outcome.1 :: (serve (.holding outcome.2) requests).1 = _
      rw [ih]
      simp
    | aborted =>
      change .aborted :: (serve .poisoned requests).1 = _
      rw [serve_poisoned]
      rfl

/-- The key that is taken out of a lock is the one that the calls without a lock leave, unless one
of them is aborted. -/
theorem unlock_serve_holding (key : s.Key) (requests : List Request) :
    (serve (.holding key) requests).2.unlock = (s.serve key requests).2.orPoisoned := by
  induction requests generalizing key with
  | nil => rfl
  | cons request requests ih =>
    rw [serve, ask_holding, Signer.serve]
    cases s.ask key request with
    | returned outcome => exact ih outcome.2
    | aborted =>
      change (serve .poisoned requests).2.unlock = _
      rw [serve_poisoned]
      rfl

end LockedKey

/-- A key under a lock as it lies in memory, with the calls that were made to the signer so far. -/
structure GuardedKey (s : Signer) where
  key : s.Key
  poisoned : Bool
  log : List (s.Key × Request)

namespace GuardedKey

/-- A key that has just been put under a lock. -/
def new (key : s.Key) : GuardedKey s := ⟨key, false, []⟩

variable (torn : s.Key → Request → s.Key)

/-- Ask a guarded key for something. `torn` is what an aborted call makes of the key. -/
def ask (guarded : GuardedKey s) (request : Request) :
    Call (Except Error (Answer s)) × GuardedKey s :=
  if guarded.poisoned then
    (refusal, guarded)
  else
    let log := guarded.log ++ [(guarded.key, request)]
    match s.ask guarded.key request with
    | .returned (answer, key) => (.returned answer, ⟨key, false, log⟩)
    | .aborted => (.aborted, ⟨torn guarded.key request, true, log⟩)

/-- Ask a guarded key for one thing after the other. -/
def serve (guarded : GuardedKey s) :
    List Request → List (Call (Except Error (Answer s))) × GuardedKey s
  | [] => ([], guarded)
  | request :: requests =>
    let (answer, guarded) := guarded.ask torn request
    let (answers, guarded) := serve guarded requests
    (answer :: answers, guarded)

/-- Take the key out of the lock. -/
def unlock (guarded : GuardedKey s) : Except Error s.Key :=
  if guarded.poisoned then .error .keyPoisoned else .ok guarded.key

/-- What can be seen of a guarded key: nothing once it is poisoned. -/
def seen (guarded : GuardedKey s) : LockedKey s :=
  if guarded.poisoned then .poisoned else .holding guarded.key

/-- What is taken out of a lock is what can be seen of it. -/
theorem unlock_seen (guarded : GuardedKey s) : guarded.unlock = guarded.seen.unlock := by
  unfold unlock seen
  cases guarded.poisoned <;> rfl

/-- A poisoned key refuses everything, and the signer is not called. -/
theorem ask_of_poisoned {guarded : GuardedKey s} (hpoisoned : guarded.poisoned = true)
    (request : Request) :
    guarded.ask torn request = (refusal, guarded) := by
  rw [ask, if_pos hpoisoned]

/-- A key that is not poisoned calls the signer once, and is poisoned exactly by an abort. -/
theorem ask_of_clean (key : s.Key) (log : List (s.Key × Request)) (request : Request) :
    ask torn ⟨key, false, log⟩ request =
      match s.ask key request with
      | .returned (answer, key') =>
        (.returned answer, ⟨key', false, log ++ [(key, request)]⟩)
      | .aborted => (.aborted, ⟨torn key request, true, log ++ [(key, request)]⟩) := by
  rw [ask, if_neg Bool.false_ne_true]

/-- The flag does what the lock does. -/
theorem ask_seen (guarded : GuardedKey s) (request : Request) :
    ((guarded.ask torn request).1, (guarded.ask torn request).2.seen) =
      guarded.seen.ask request := by
  obtain ⟨key, poisoned, log⟩ := guarded
  cases poisoned with
  | true =>
    rw [ask_of_poisoned torn rfl]
    exact (LockedKey.ask_poisoned request).symm
  | false =>
    change _ = LockedKey.ask (.holding key) request
    rw [ask_of_clean, LockedKey.ask_holding]
    cases s.ask key request <;> rfl

/-- What the flag does to a series of requests is what the lock does. -/
theorem serve_seen (guarded : GuardedKey s) (requests : List Request) :
    ((guarded.serve torn requests).1, (guarded.serve torn requests).2.seen) =
      guarded.seen.serve requests := by
  induction requests generalizing guarded with
  | nil => rfl
  | cons request requests ih =>
    simp only [serve, LockedKey.serve, ← ask_seen torn guarded request, ← ih]

/-- A poisoned key stays as it is, and the signer is not called. -/
theorem serve_of_poisoned {guarded : GuardedKey s} (hpoisoned : guarded.poisoned = true)
    (requests : List Request) : (guarded.serve torn requests).2 = guarded := by
  induction requests with
  | nil => rfl
  | cons request requests ih =>
    rw [serve, ask_of_poisoned torn hpoisoned]
    exact ih

/-- The signer is called as it would be without a lock, and not again after an abort. -/
theorem log_serve (key : s.Key) (log : List (s.Key × Request)) (requests : List Request) :
    (serve torn ⟨key, false, log⟩ requests).2.log = log ++ s.calls key requests := by
  induction requests generalizing key log with
  | nil => simp [serve, Signer.calls]
  | cons request requests ih =>
    rw [serve, ask_of_clean, Signer.calls]
    cases s.ask key request with
    | returned outcome =>
      change (serve torn ⟨outcome.2, false, _⟩ requests).2.log = _
      rw [ih, List.append_assoc, List.singleton_append]
    | aborted =>
      change (serve torn ⟨_, true, _⟩ requests).2.log = _
      rw [serve_of_poisoned torn rfl]

end GuardedKey

/-- A lock is transparent until a call is aborted and closed from then on. Whatever a key is asked
for, the answers under the lock are those of the key itself up to and with the first abort, errors
included, and refusals after it. The key that is taken out in the end is the one that the key itself
has become, or none if a call was aborted. In memory, whatever an aborted call makes of the key, all
this is seen, and the calls that the signer receives are those up to and with the first abort. -/
theorem LockedKey.transparent_until_abort (s : Signer) (key : s.Key) (requests : List Request) :
    (serve (.holding key) requests).1 =
        (s.serve key requests).1 ++
          List.replicate (requests.length - (s.serve key requests).1.length) refusal ∧
      (serve (.holding key) requests).2.unlock = (s.serve key requests).2.orPoisoned ∧
      ∀ torn : s.Key → Request → s.Key,
        ((GuardedKey.new key).serve torn requests).1 = (serve (.holding key) requests).1 ∧
          ((GuardedKey.new key).serve torn requests).2.unlock =
            (serve (.holding key) requests).2.unlock ∧
          ((GuardedKey.new key).serve torn requests).2.log = s.calls key requests := by
  refine ⟨serve_holding key requests, unlock_serve_holding key requests, ?_⟩
  intro torn
  have hseen := GuardedKey.serve_seen torn (GuardedKey.new key) requests
  change _ = serve (.holding key) requests at hseen
  refine ⟨?_, ?_, ?_⟩
  · rw [← hseen]
  · rw [GuardedKey.unlock_seen, ← hseen]
  · exact GuardedKey.log_serve torn key [] requests

end MerkleSignature
