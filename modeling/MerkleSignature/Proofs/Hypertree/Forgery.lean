import MerkleSignature.Proofs.Hypertree.Refinement
import MerkleSignature.Proofs.ReducedSignature

/-!
# What a forgery at a used index shows

Two valid signatures with one index climb through the same trees at the same positions and arrive at
the same root. Going down from there, the shares of a layer and the blocks that they sign are the
same, until a layer is reached on which they are not. On that layer two calls of the hash collide,
or a chain of the second signature starts before the element that the first signature reveals. If
all layers are the same, so are the hashes of the two messages.

Against an honest signature this is what every forgery at its index amounts to.
-/

namespace MerkleSignature.Hypertree

open Winternitz

namespace PublicKey

/-- The root that the reduced signatures from `layer` on commit to, with a record. -/
def recordLayers (s : OneTime) (height index : Nat) :
    (layer : Nat) → (block : Bytes) → List ReducedSignature → Recorded HashCall Bytes
  | _, block, [] => pure block
  | layer, block, reduced :: rest => do
    let (tree, leaf) := splitIndex index height layer
    let root ← reduced.record s block (positionOf layer tree) leaf
    recordLayers s height index (layer + 1) root rest

/-- The root that a signature of a message commits to, with a record. -/
def record (key : PublicKey) (message : Bytes) (s : Signature) : Recorded HashCall Bytes := do
  let digest := key.params.digest
  let block ← digest.recordMessage s.randomness key.root s.index message
  recordLayers ⟨digest, key.params.width, key.publicSeed⟩ key.params.treeHeight s.index 0 block
    s.layers

/-- The block that a layer signs: on the lowest layer that of the message, above it the root that
the layers below commit to. -/
def layerBlock (key : PublicKey) (message : Bytes) (s : Signature) (layer : Nat) :
    Except Error Bytes := do
  let digest := key.params.digest
  let block ← digest.messageDigest s.randomness key.root s.index message
  recoverLayers ⟨digest, key.params.width, key.publicSeed⟩ key.params.treeHeight s.index 0 block
    (s.layers.take layer)

/-- On some layer the one-time signature in the second of two signatures precedes that in the
first. -/
def PrecedesOnLayer (key : PublicKey) (message : Bytes) (s : Signature) (message' : Bytes)
    (s' : Signature) : Prop :=
  ∃ (layer : Nat) (share share' : ReducedSignature) (block block' : Bytes),
    s.layers[layer]? = some share ∧ s'.layers[layer]? = some share' ∧
    key.layerBlock message s layer = .ok block ∧ key.layerBlock message' s' layer = .ok block' ∧
    OneTime.Precedes ⟨key.params.digest, key.params.width, key.publicSeed⟩
      (positionOf layer (splitIndex s.index key.params.treeHeight layer).1)
      (splitIndex s.index key.params.treeHeight layer).2 share.oneTime block share'.oneTime block'

variable {s : OneTime} {height index layer : Nat}

/-- The recorded climb through the layers is the climb. -/
theorem value_recordLayers (block : Bytes) (shares : List ReducedSignature) :
    (recordLayers s height index layer block shares).value =
      recoverLayers s height index layer block shares := by
  induction shares generalizing layer block with
  | nil => rfl
  | cons share shares ih =>
    rw [recordLayers, recoverLayers]
    dsimp only
    rw [Recorded.value_bind, ReducedSignature.value_record]
    exact bind_congr fun root => ih root

/-- The recorded recovery of the root is its recovery. -/
@[simp] theorem value_record (key : PublicKey) (message : Bytes) (s : Signature) :
    (key.record message s).value = key.recoverRoot message s := by
  simp [record, recoverRoot, value_recordLayers]

/-- A valid signature fits the parameters, and verifying it arrives at the root of the key. -/
theorem exists_record_of_verify {key : PublicKey} {message : Bytes} {s : Signature}
    (h : key.verify message s = true) :
    s.params = key.params ∧ s.index < key.params.capacity ∧
      s.layers.length = key.params.layers ∧
      (∀ reduced ∈ s.layers, reduced.path.length = key.params.treeHeight) ∧
      ∃ calls, (key.record message s).run = .ok (key.root, calls) := by
  rw [verify] at h
  split at h
  · rename_i hfit
    obtain ⟨hparams, hindex, hlayers, hpaths⟩ := hfit
    refine ⟨hparams, hindex, hlayers, hpaths, Recorded.value_eq_ok_iff.1 ?_⟩
    rw [value_record]
    split at h
    · rename_i root hroot
      rw [hroot, eq_of_beq h]
    · contradiction
  · contradiction

/-- Two climbs through the layers to the same root sign the same block with the same shares, or two
of their calls collide, or on one layer the second one-time signature precedes the first. -/
theorem layers_eq_or_collision_or_precedes {block block' root : Bytes}
    {shares shares' : List ReducedSignature} {calls calls' : List HashCall}
    (hlength : shares.length = shares'.length)
    (hpaths : ∀ share ∈ shares, share.path.length = height)
    (hpaths' : ∀ share ∈ shares', share.path.length = height)
    (h : (recordLayers s height index layer block shares).run = .ok (root, calls))
    (h' : (recordLayers s height index layer block' shares').run = .ok (root, calls')) :
    (block = block' ∧ shares = shares') ∨ Collision s.digest calls calls' ∨
      ∃ (k : Nat) (share share' : ReducedSignature) (below below' : Bytes),
        shares[k]? = some share ∧ shares'[k]? = some share' ∧
        recoverLayers s height index layer block (shares.take k) = .ok below ∧
        recoverLayers s height index layer block' (shares'.take k) = .ok below' ∧
        s.Precedes (positionOf (layer + k) (splitIndex index height (layer + k)).1)
          (splitIndex index height (layer + k)).2 share.oneTime below share'.oneTime below' := by
  induction shares generalizing layer block block' shares' calls calls' with
  | nil =>
    obtain rfl := List.eq_nil_of_length_eq_zero hlength.symm
    obtain ⟨rfl, -⟩ := Recorded.run_pure_eq_ok_iff.1 h
    obtain ⟨rfl, -⟩ := Recorded.run_pure_eq_ok_iff.1 h'
    exact .inl ⟨rfl, rfl⟩
  | cons share shares ih =>
    obtain ⟨share', shares', rfl⟩ := List.exists_cons_of_length_eq_add_one hlength.symm
    obtain ⟨above, _, _, hshare, hrest, rfl⟩ := Recorded.run_bind_eq_ok_iff.1 h
    obtain ⟨above', _, _, hshare', hrest', rfl⟩ := Recorded.run_bind_eq_ok_iff.1 h'
    obtain ⟨hpath, hpaths⟩ := List.forall_mem_cons.1 hpaths
    obtain ⟨hpath', hpaths'⟩ := List.forall_mem_cons.1 hpaths'
    rcases ih (Nat.succ.inj hlength) hpaths hpaths' hrest hrest' with ⟨rfl, rfl⟩ | hcollision |
      ⟨k, later, later', below, below', hk, hk', hbelow, hbelow', hearlier⟩
    · rcases ReducedSignature.eq_or_collision_or_precedes (hpath.trans hpath'.symm) hshare hshare'
        with ⟨hblock, rfl⟩ | hcollision | hprecedes
      · exact .inl ⟨hblock, rfl⟩
      · exact .inr (.inl hcollision.append_left)
      · exact .inr (.inr ⟨0, share, share', block, block', rfl, rfl, rfl, rfl, hprecedes⟩)
    · exact .inr (.inl hcollision.append_right)
    · have habove := Recorded.value_eq_ok_iff.2 ⟨_, hshare⟩
      have habove' := Recorded.value_eq_ok_iff.2 ⟨_, hshare'⟩
      rw [ReducedSignature.value_record] at habove habove'
      rw [show layer + 1 + k = layer + (k + 1) by omega] at hearlier
      exact .inr (.inr ⟨k + 1, later, later', below, below', hk, hk',
        bind_eq_ok_iff.2 ⟨above, habove, hbelow⟩, bind_eq_ok_iff.2 ⟨above', habove', hbelow'⟩,
        hearlier⟩)

/-- Two valid signatures with one index are the same signature of the same message, or two of their
calls collide, or on one layer the second one-time signature precedes the first. -/
theorem eq_or_collision_or_precedes {key : PublicKey} {message message' : Bytes}
    {s s' : Signature} (hindex : s'.index = s.index) (h : key.verify message s = true)
    (h' : key.verify message' s' = true) :
    ∃ calls calls', (key.record message s).run = .ok (key.root, calls) ∧
      (key.record message' s').run = .ok (key.root, calls') ∧
      ((message', s') = (message, s) ∨ Collision key.params.digest calls calls' ∨
        key.PrecedesOnLayer message s message' s') := by
  obtain ⟨hparams, -, hlayers, hpaths, calls, hrun⟩ := exists_record_of_verify h
  obtain ⟨hparams', -, hlayers', hpaths', calls', hrun'⟩ := exists_record_of_verify h'
  refine ⟨calls, calls', hrun, hrun', ?_⟩
  obtain ⟨params, index, randomness, layers⟩ := s
  obtain ⟨params', index', randomness', layers'⟩ := s'
  obtain rfl : index' = index := hindex
  obtain rfl : params' = params := hparams'.trans hparams.symm
  obtain ⟨block, _, _, hblock, hclimb, rfl⟩ := Recorded.run_bind_eq_ok_iff.1 hrun
  obtain ⟨block', _, _, hblock', hclimb', rfl⟩ := Recorded.run_bind_eq_ok_iff.1 hrun'
  rcases layers_eq_or_collision_or_precedes (hlayers.trans hlayers'.symm) hpaths hpaths' hclimb
    hclimb' with ⟨rfl, hsame⟩ | hcollision |
      ⟨k, share, share', below, below', hk, hk', hbelow, hbelow', hprecedes⟩
  · rcases Digest.message_eq_or_collision hblock hblock' with hhashed | hcollision
    · obtain rfl : layers = layers' := hsame
      obtain ⟨rfl, rfl⟩ : randomness = randomness' ∧ message = message' := Prod.mk.inj hhashed
      exact .inl rfl
    · exact .inr (.inl hcollision.append_left)
  · exact .inr (.inl hcollision.append_right)
  · have hdigest := Recorded.value_eq_ok_iff.2 ⟨_, hblock⟩
    have hdigest' := Recorded.value_eq_ok_iff.2 ⟨_, hblock'⟩
    rw [Digest.value_recordMessage] at hdigest hdigest'
    rw [Nat.zero_add] at hprecedes
    exact .inr (.inr ⟨k, share, share', below, below', hk, hk',
      bind_eq_ok_iff.2 ⟨block, hdigest, hbelow⟩, bind_eq_ok_iff.2 ⟨block', hdigest', hbelow'⟩,
      hprecedes⟩)

end PublicKey

/-- A forgery at a used index gives itself away. Let a key of an origin sign a message. If the
public key accepts another message or another signature with the index of that signature, then the
two verifications hash different inputs to the same output at one place, or on some layer there is a
chain on which the forgery reveals an earlier element than the honest signature, from which the
honest element is reached. -/
theorem forgery_collides_or_precedes (o : Origin) (key : PrivateKey) (hkey : Reachable o key)
    (message : Bytes) (signature : Signature) (after : PrivateKey)
    (hsign : key.sign message = .ok (signature, after)) (message' : Bytes)
    (signature' : Signature) (hindex : signature'.index = signature.index)
    (hne : (message', signature') ≠ (message, signature))
    (hverify : key.publicKey.verify message' signature' = true) :
    ∃ calls calls',
      (key.publicKey.record message signature).run = .ok (key.publicKey.root, calls) ∧
      (key.publicKey.record message' signature').run = .ok (key.publicKey.root, calls') ∧
      (Collision o.params.digest calls calls' ∨
        key.publicKey.PrecedesOnLayer message signature message' signature') := by
  obtain ⟨hcoherent, rfl⟩ := hkey.coherent
  have hused : key.record.index < key.params.capacity := by
    by_contra hexhausted
    rw [PrivateKey.sign_of_exhausted (Nat.not_lt.1 hexhausted)] at hsign
    contradiction
  obtain ⟨signed, _, hsigned, hstateless, -⟩ := hcoherent.sign hused message
  obtain ⟨rfl, -⟩ := Prod.mk.inj (Except.ok.inj (hsigned.symm.trans hsign))
  have hvalid : key.publicKey.verify message signed = true := by
    rw [hcoherent.publicKey_eq]
    exact (hcoherent.wellSeeded.statelessSign_valid hused hstateless).2.2
  obtain ⟨calls, calls', hrun, hrun', hcases⟩ :=
    PublicKey.eq_or_collision_or_precedes hindex hvalid hverify
  exact ⟨calls, calls', hrun, hrun', hcases.resolve_left hne⟩

/-- The key with zero seeds signs the empty message. What the stateless signer makes of another
message at the same index is a forgery against that signature. -/
theorem forgery_collides_or_precedes_smallestOrigin :
    ∃ key signature after signature', Reachable smallestOrigin key ∧
      key.sign [] = .ok (signature, after) ∧ signature'.index = signature.index ∧
      ([0], signature') ≠ (([] : Bytes), signature) ∧
      key.publicKey.verify [0] signature' = true ∧
      ∃ calls calls',
        (key.publicKey.record [] signature).run = .ok (key.publicKey.root, calls) ∧
        (key.publicKey.record [0] signature').run = .ok (key.publicKey.root, calls') ∧
        (Collision smallestOrigin.params.digest calls calls' ∨
          key.publicKey.PrecedesOnLayer [] signature [0] signature') := by
  have ho := smallestOrigin_wellSeeded
  obtain ⟨key, hmade, hkey, horigin, hrecord⟩ := PrivateKey.exists_ofSeeds ho
  have hindex : key.record.index < key.params.capacity := by
    rw [hrecord, show key.params = smallestOrigin.params from congrArg Origin.params horigin]
    decide
  obtain ⟨signature, after, hsign, hstateless, -⟩ := hkey.sign hindex []
  obtain ⟨signature', hother⟩ := hkey.wellSeeded.exists_statelessSign key.record.index [0]
  obtain ⟨hsigned, -, -⟩ := hkey.wellSeeded.statelessSign_valid hindex hstateless
  obtain ⟨hsigned', -, hvalid⟩ := hkey.wellSeeded.statelessSign_valid hindex hother
  have hsame : signature'.index = signature.index := hsigned'.trans hsigned.symm
  have hne : ([0], signature') ≠ (([] : Bytes), signature) := fun h => nomatch (Prod.mk.inj h).1
  rw [← hkey.publicKey_eq] at hvalid
  exact ⟨key, signature, after, signature', .made hmade, hsign, hsame, hne, hvalid,
    forgery_collides_or_precedes smallestOrigin key (.made hmade) [] signature after hsign [0]
      signature' hsame hne hvalid⟩

end MerkleSignature.Hypertree
