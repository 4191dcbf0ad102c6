import Mathlib.Data.List.Nodup
import MerkleSignature.Proofs.Lifecycle
import MerkleSignature.Proofs.Outcome

/-!
# One-time keys sign one block

A key moves to the next index with every signature and never goes back: not when it is stored and
read, and not when it is erased. So the signatures that it returns have increasing indices. The
one-time key that a signature uses on the lowest layer determines the index, and the block that a
one-time key signs on a higher layer depends on that one-time key alone. Hence no one-time key signs
two blocks in the life of a key.
-/

namespace MerkleSignature.KeyKind

variable {K : KeyKind}

/-- The one-time signatures in a signature that was returned, as the public key of some key reads
them. -/
def usesOf (K : KeyKind) (key : K.Key) (a : K.Signing) : Except Error (List OneTimeUse) :=
  K.uses (K.publicKey key) a.message a.signature

namespace Laws

variable {L : Laws K} {key : K.Key}

/-- A key that cannot sign any more does not sign in any event, and cannot sign afterwards. -/
theorem next_of_exhausted (L : Laws K) {key : K.Key}
    (hexhausted : K.capacity (K.params key) ≤ (K.record key).index) (event : Event) :
    K.signing? key event = none ∧
      K.capacity (K.params (K.next key event)) ≤ (K.record (K.next key event)).index := by
  cases event with
  | reload =>
    rw [next, L.reload_of_exhausted hexhausted]
    exact ⟨rfl, hexhausted⟩
  | request r =>
    cases r with
    | sign message =>
      rw [next, ask, signing?, L.sign_exhausted hexhausted]
      exact ⟨rfl, hexhausted⟩
    | erase => exact ⟨rfl, L.exhausted_erase key⟩
    | remaining => exact ⟨rfl, hexhausted⟩
    | encode => exact ⟨rfl, hexhausted⟩
    | publicKey => exact ⟨rfl, hexhausted⟩

/-- A key that cannot sign returns no signature any more. -/
theorem signings_of_exhausted (L : Laws K) {key : K.Key}
    (hexhausted : K.capacity (K.params key) ≤ (K.record key).index) (events : List Event) :
    K.signings key events = [] := by
  induction events generalizing key with
  | nil => rfl
  | cons event events ih =>
    obtain ⟨hnone, hnext⟩ := L.next_of_exhausted hexhausted event
    rw [signings, hnone, ih hnext]
    rfl

/-- What an event that does not end the life of a coherent key does: the key keeps everything but
its index, which does not fall. When the key signs, it signs as its fields say, and the index
rises. -/
structure Continues (L : Laws K) (key : K.Key) (event : Event) : Prop where
  coherent : L.Coherent (K.next key event)
  params_eq : K.params (K.next key event) = K.params key
  record_eq : K.record (K.next key event) =
    { K.record key with index := (K.record (K.next key event)).index }
  index_le : (K.record key).index ≤ (K.record (K.next key event)).index
  signed : ∀ a ∈ K.signing? key event, a.signer = key ∧
    (K.record key).index < (K.record (K.next key event)).index ∧
    L.signature (K.params key) (K.record key) a.message = .ok a.signature

/-- A coherent key with an index left continues in every event, or is erased in it. -/
theorem continues_or_exhausted (hkey : L.Coherent key)
    (hindex : (K.record key).index < K.capacity (K.params key)) (event : Event) :
    L.Continues key event ∨ (K.signing? key event = none ∧
      K.capacity (K.params (K.next key event)) ≤ (K.record (K.next key event)).index) := by
  -- An event in which the key stays as it is.
  have hstays (hnone : K.signing? key event = none) (hsame : K.next key event = key) :
      L.Continues key event :=
    ⟨hsame.symm ▸ hkey, by rw [hsame], by rw [hsame], Nat.le_of_eq (by rw [hsame]),
      fun a ha => by rw [hnone] at ha; contradiction⟩
  cases event with
  | reload =>
    obtain ⟨hafter, hparams, hrecord⟩ := coherent_reload hkey hindex
    exact .inl ⟨hafter, hparams, by rw [next, hrecord], Nat.le_of_eq (by rw [next, hrecord]),
      fun a ha => (nomatch ha)⟩
  | request r =>
    cases r with
    | sign message =>
      obtain ⟨s, after, hsign, hs, hafter, hparams, hrecord⟩ := L.sign_coherent hkey hindex message
      have hnext : K.next key (.request (.sign message)) = after := by rw [next, ask, hsign]; rfl
      have hrises : (K.record after).index = (K.record key).index + 1 := by rw [hrecord]
      refine .inl ⟨hnext ▸ hafter, hnext ▸ hparams, ?_, by rw [hnext]; omega, fun a ha => ?_⟩
      · rw [hnext, hrises, hrecord]
      · rw [signing?, hsign] at ha
        obtain rfl := Option.some.inj ha
        exact ⟨rfl, by rw [hnext]; omega, hs⟩
    | erase => exact .inr ⟨rfl, L.exhausted_erase key⟩
    | remaining => exact .inl (hstays rfl rfl)
    | encode => exact .inl (hstays rfl rfl)
    | publicKey => exact .inl (hstays rfl rfl)

/-- A signature was returned by a coherent key that differs from an earlier one only by its index,
which is not smaller. -/
structure Follows (L : Laws K) (key : K.Key) (a : K.Signing) : Prop where
  coherent : L.Coherent a.signer
  params_eq : K.params a.signer = K.params key
  record_eq : K.record a.signer = { K.record key with index := (K.record a.signer).index }
  index_le : (K.record key).index ≤ (K.record a.signer).index
  index_lt : (K.record a.signer).index < K.capacity (K.params a.signer)
  signature_eq : L.signature (K.params a.signer) (K.record a.signer) a.message = .ok a.signature

/-- What follows the key after an event follows the key before it. -/
theorem Follows.of_next {event : Event} {a : K.Signing} (h : L.Follows (K.next key event) a)
    (hevent : L.Continues key event) : L.Follows key a where
  coherent := h.coherent
  params_eq := h.params_eq.trans hevent.params_eq
  record_eq := by
    have hlater := h.record_eq
    rw [hevent.record_eq] at hlater
    exact hlater
  index_le := Nat.le_trans hevent.index_le h.index_le
  index_lt := h.index_lt
  signature_eq := h.signature_eq

/-- The signatures that a coherent key returns in its life follow it, with increasing indices. -/
theorem follows_of_mem_signings (hkey : L.Coherent key) (events : List Event) :
    (∀ a ∈ K.signings key events, L.Follows key a) ∧
      (K.signings key events).Pairwise fun a b =>
        (K.record a.signer).index < (K.record b.signer).index := by
  induction events generalizing key with
  | nil => exact ⟨fun _ h => absurd h List.not_mem_nil, .nil⟩
  | cons event events ih =>
    rcases Nat.lt_or_ge (K.record key).index (K.capacity (K.params key)) with hindex | hexhausted
    · rcases continues_or_exhausted hkey hindex event with hevent | ⟨hnone, hexhausted⟩
      · obtain ⟨hfollows, hincreasing⟩ := ih hevent.coherent
        have hlater := fun a ha => (hfollows a ha).of_next hevent
        rw [signings]
        cases hsigning : K.signing? key event with
        | none => exact ⟨hlater, hincreasing⟩
        | some a =>
          obtain ⟨rfl, hrises, hsigned⟩ := hevent.signed a hsigning
          refine ⟨List.forall_mem_cons.2 ⟨?_, hlater⟩, List.pairwise_cons.2 ⟨fun b hb => ?_,
            hincreasing⟩⟩
          · exact ⟨hkey, rfl, rfl, Nat.le_refl _, hindex, hsigned⟩
          · exact Nat.lt_of_lt_of_le hrises (hfollows b hb).index_le
      · rw [signings, hnone, L.signings_of_exhausted hexhausted]
        exact ⟨fun _ h => absurd h List.not_mem_nil, .nil⟩
    · rw [L.signings_of_exhausted hexhausted]
      exact ⟨fun _ h => absurd h List.not_mem_nil, .nil⟩

end Laws

/-- What makes the one-time keys of a kind of key sign one block each. -/
structure Laws.UseLaws (L : Laws K) where
  signatures_eq : ∀ {publicKey message s uses}, K.uses publicKey message s = .ok uses →
    uses.map OneTimeUse.signature = K.oneTimeSignatures s
  /-- The index of the signature that uses a one-time key of the lowest layer. -/
  index : K.Params → OneTimeKey → Nat
  /-- The block that a one-time key above the lowest layer signs. -/
  block : K.Params → SecretSeeds → (publicSeed : Bytes) → OneTimeKey → Bytes
  exists_uses : ∀ {key}, L.Coherent key → (K.record key).index < K.capacity (K.params key) →
    ∀ {message s}, L.signature (K.params key) (K.record key) message = .ok s →
      ∃ uses, K.uses (K.publicKey key) message s = .ok uses ∧ (uses.map OneTimeUse.key).Nodup ∧
        ∀ u ∈ uses, u.block.length = (K.digest (K.params key)).size ∧
          (K.treeOf (K.params key) (K.record key).seeds (K.record key).publicSeed u.key.layer
            u.key.tree).signLeaf u.block u.key.leaf = .ok u.signature ∧
          (u.key.layer = 0 → index (K.params key) u.key = (K.record key).index) ∧
          (u.key.layer ≠ 0 → u.block = block (K.params key) (K.record key).seeds
            (K.record key).publicSeed u.key)

namespace Laws.UseLaws

variable {L : Laws K} (U : UseLaws L) {key : K.Key} {a b : K.Signing} {uses : List OneTimeUse}
include U

/-- Every signature that follows a key consists of one-time signatures which the trees of the key
make. -/
theorem exists_usesOf (ha : L.Follows key a) :
    ∃ uses, K.usesOf key a = .ok uses ∧ (uses.map OneTimeUse.key).Nodup ∧
      ∀ u ∈ uses, u.block.length = (K.digest (K.params key)).size ∧
        (K.treeOf (K.params key) (K.record key).seeds (K.record key).publicSeed u.key.layer
          u.key.tree).signLeaf u.block u.key.leaf = .ok u.signature ∧
        (u.key.layer = 0 → U.index (K.params key) u.key = (K.record a.signer).index) ∧
        (u.key.layer ≠ 0 → u.block = U.block (K.params key) (K.record key).seeds
          (K.record key).publicSeed u.key) := by
  have hroot : (K.record a.signer).root = (K.record key).root := by rw [ha.record_eq]
  have hpublic : (K.record a.signer).publicSeed = (K.record key).publicSeed := by rw [ha.record_eq]
  have hseeds : (K.record a.signer).seeds = (K.record key).seeds := by rw [ha.record_eq]
  obtain ⟨uses, huses, hspec⟩ := U.exists_uses ha.coherent ha.index_lt ha.signature_eq
  rw [ha.params_eq, hseeds, hpublic] at hspec
  rw [L.publicKey_congr ha.params_eq hroot hpublic] at huses
  exact ⟨uses, huses, hspec⟩

/-- A one-time key of the lowest layer is used by the signature with its index alone. -/
theorem index_of_use (ha : L.Follows key a) (huses : K.usesOf key a = .ok uses) {u : OneTimeUse}
    (hu : u ∈ uses) (hlayer : u.key.layer = 0) :
    U.index (K.params key) u.key = (K.record a.signer).index := by
  obtain ⟨uses', huses', -, hspec⟩ := U.exists_usesOf ha
  obtain rfl := Except.ok.inj (huses.symm.trans huses')
  exact (hspec u hu).2.2.1 hlayer

/-- A one-time key that occurs in two signatures signs the same block in both. -/
theorem block_eq_of_key_eq (hkey : L.Coherent key) {events : List Event}
    (ha : a ∈ K.signings key events) (hb : b ∈ K.signings key events) {uses' : List OneTimeUse}
    (huses : K.usesOf key a = .ok uses) (huses' : K.usesOf key b = .ok uses') {u v : OneTimeUse}
    (hu : u ∈ uses) (hv : v ∈ uses') (hsame : u.key = v.key) : u.block = v.block := by
  obtain ⟨hfollows, hincreasing⟩ := L.follows_of_mem_signings hkey events
  obtain ⟨known, hknown, hnodup, hspec⟩ := U.exists_usesOf (hfollows a ha)
  obtain rfl := Except.ok.inj (huses.symm.trans hknown)
  obtain ⟨known', hknown', -, hspec'⟩ := U.exists_usesOf (hfollows b hb)
  obtain rfl := Except.ok.inj (huses'.symm.trans hknown')
  by_cases hlayer : u.key.layer = 0
  · -- Both signatures have the index of the one-time key, so they are the same signature.
    have hindex : (K.record a.signer).index = (K.record b.signer).index := by
      rw [← (hspec u hu).2.2.1 hlayer, hsame, (hspec' v hv).2.2.1 (hsame ▸ hlayer)]
    have hsigning : a = b := by
      obtain ⟨i, hi, rfl⟩ := List.getElem_of_mem ha
      obtain ⟨j, hj, rfl⟩ := List.getElem_of_mem hb
      rcases Nat.lt_trichotomy i j with hlt | rfl | hgt
      · exact absurd hindex (Nat.ne_of_lt (List.pairwise_iff_getElem.1 hincreasing i j hi hj hlt))
      · rfl
      · exact absurd hindex.symm
          (Nat.ne_of_lt (List.pairwise_iff_getElem.1 hincreasing j i hj hi hgt))
    subst hsigning
    obtain rfl := Except.ok.inj (huses.symm.trans huses')
    rw [List.inj_on_of_nodup_map hnodup hu hv hsame]
  · rw [(hspec u hu).2.2.2 hlayer, hsame, (hspec' v hv).2.2.2 (hsame ▸ hlayer)]

/-- No one-time key of the lowest layer occurs in two signatures. -/
theorem lowest_key_ne (hkey : L.Coherent key) (events : List Event) :
    (K.signings key events).Pairwise fun a b => ∀ usesA usesB, K.usesOf key a = .ok usesA →
      K.usesOf key b = .ok usesB → ∀ u ∈ usesA, ∀ v ∈ usesB, u.key.layer = 0 → u.key ≠ v.key := by
  obtain ⟨hfollows, hincreasing⟩ := L.follows_of_mem_signings hkey events
  refine hincreasing.imp_of_mem fun {a b} ha hb hlt usesA usesB husesA husesB u hu v hv hlayer
    hsame => Nat.ne_of_lt hlt ?_
  rw [← U.index_of_use (hfollows a ha) husesA hu hlayer, hsame,
    U.index_of_use (hfollows b hb) husesB hv (hsame ▸ hlayer)]

end Laws.UseLaws

end MerkleSignature.KeyKind
