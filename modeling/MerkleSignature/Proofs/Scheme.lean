import MerkleSignature.Proofs.Hypertree.Lifecycle
import MerkleSignature.Proofs.SingleTree.Lifecycle

/-!
# What holds of keys of both kinds

A key forgets its traversals and its remembered shares when it is stored. All of them are functions
of the stored fields, so the key that is read behaves like the key that was stored: any two keys
that compare equal give the same answers for the rest of their lives.

In the life of a key, reloaded at any time and erased in the end, no one-time key signs two blocks,
and none of the lowest layer occurs in two signatures.
-/

namespace MerkleSignature

/-- The kinds of private keys. -/
inductive Scheme where
  | singleTree
  | hypertree
  deriving DecidableEq

namespace Scheme

/-- The keys of each kind. -/
def keys : Scheme → KeyKind
  | singleTree => SingleTree.keyKind
  | hypertree => Hypertree.keyKind

/-- Keys of both kinds behave as their stored fields say. -/
def laws : (scheme : Scheme) → scheme.keys.Laws
  | singleTree => SingleTree.laws
  | hypertree => Hypertree.laws

/-- The one-time keys of both kinds sign one block each. -/
def useLaws : (scheme : Scheme) → scheme.laws.UseLaws
  | singleTree => SingleTree.useLaws
  | hypertree => Hypertree.useLaws

/-- Storing and reading a key does not show. A key that was made from seeds and then asked to sign
or reloaded is stored and read again as long as it has an index left; the key that is read compares
equal and has the same public key. Keys that compare equal, whatever they were made from, give the
same answers for the rest of their lives, and these answers do not depend on when the key is
reloaded. -/
theorem reloading_does_not_show (scheme : Scheme) (p : scheme.keys.Params) (key : scheme.keys.Key)
    (hkey : scheme.keys.Reachable p key) :
    ((scheme.keys.record key).index < scheme.keys.capacity p →
      ∃ bytes after, scheme.keys.encode key = .ok bytes ∧
        scheme.keys.decode p bytes = .ok after ∧ scheme.keys.same after key = true ∧
        scheme.keys.publicKey after = scheme.keys.publicKey key) ∧
    (∀ p' other, scheme.keys.Reachable p' other → scheme.keys.same key other = true →
      ∀ events, scheme.keys.answers key events = scheme.keys.answers other events) ∧
    ∀ events, scheme.keys.answers key events =
      scheme.keys.answers key (KeyKind.withoutReloads events) := by
  obtain ⟨hlive, rfl⟩ := scheme.laws.live_of_reachable hkey
  refine ⟨fun hindex => ?_, fun p' other hother hsame events => ?_, fun events => ?_⟩
  · obtain ⟨bytes, after, hstored, hread, -, hparams, hrecord⟩ :=
      scheme.laws.reload_coherent (hlive.coherent hindex) hindex
    exact ⟨bytes, after, hstored, hread, scheme.laws.same_iff.2 ⟨hparams, hrecord⟩,
      scheme.laws.publicKey_congr hparams (by rw [hrecord]) (by rw [hrecord])⟩
  · obtain ⟨hlive', -⟩ := scheme.laws.live_of_reachable hother
    obtain ⟨hparams, hrecord⟩ := scheme.laws.same_iff.1 hsame
    have halike : scheme.laws.Alike key other := ⟨hlive, hlive', hparams, hrecord⟩
    have hself : scheme.laws.Alike other other := ⟨hlive', hlive', rfl, rfl⟩
    rw [halike.answers events, hself.answers events]
  · have hself : scheme.laws.Alike key key := ⟨hlive, hlive, rfl, rfl⟩
    exact hself.answers events

/-- The key with zero seeds for the smallest single-tree parameters has not signed yet, and storing
and reading it does not show. -/
theorem reloading_does_not_show_smallestParams :
    ∃ key : SingleTree.PrivateKey,
      SingleTree.keyKind.Reachable SingleTree.PrivateKey.smallestParams key ∧
      key.record.index < 4 ∧
      (key.record.index < 4 → ∃ bytes after, key.encode = .ok bytes ∧
        SingleTree.PrivateKey.decode SingleTree.PrivateKey.smallestParams bytes = .ok after ∧
        (after == key) = true ∧ after.publicKey = key.publicKey) ∧
      (∀ p' (other : SingleTree.PrivateKey), SingleTree.keyKind.Reachable p' other →
        (key == other) = true → ∀ events, SingleTree.keyKind.answers key events =
          SingleTree.keyKind.answers other events) ∧
      ∀ events, SingleTree.keyKind.answers key events =
        SingleTree.keyKind.answers key (KeyKind.withoutReloads events) := by
  obtain ⟨key, hmade, -, -, hindex⟩ := SingleTree.PrivateKey.exists_ofSeeds_smallestParams
  refine ⟨key, .made _ _ hmade, by rw [hindex]; decide, ?_⟩
  exact reloading_does_not_show .singleTree SingleTree.PrivateKey.smallestParams key
    (.made _ _ hmade)

/-- A generated key is coherent and keeps its parameters. -/
theorem coherent_of_generated (scheme : Scheme) {p : scheme.keys.Params} {key : scheme.keys.Key}
    (hkey : scheme.keys.Generated p key) :
    scheme.laws.Coherent key ∧ scheme.keys.params key = p :=
  scheme.laws.coherent_of_generated hkey

/-- One-time keys are used once. In the life of a key that was generated and then asked to sign,
reloaded or erased in any order, every signature that is returned consists of one-time signatures
that the one-time keys of their places make of blocks of `n` bytes. Wherever a one-time key occurs
in these signatures it signs the same block, and no one-time key of the lowest layer occurs in two
of them. -/
theorem one_time_keys_used_once (scheme : Scheme) (p : scheme.keys.Params) (key : scheme.keys.Key)
    (hkey : scheme.keys.Generated p key) (events : List KeyKind.Event) :
    (∀ a ∈ scheme.keys.signings key events, ∃ uses, scheme.keys.usesOf key a = .ok uses ∧
      uses.map OneTimeUse.signature = scheme.keys.oneTimeSignatures a.signature ∧
      ∀ u ∈ uses, u.block.length = (scheme.keys.digest p).size ∧
        (scheme.keys.treeOf p (scheme.keys.record key).seeds (scheme.keys.record key).publicSeed
          u.key.layer u.key.tree).signLeaf u.block u.key.leaf = .ok u.signature) ∧
    (∀ a ∈ scheme.keys.signings key events, ∀ b ∈ scheme.keys.signings key events,
      ∀ usesA usesB, scheme.keys.usesOf key a = .ok usesA → scheme.keys.usesOf key b = .ok usesB →
        ∀ u ∈ usesA, ∀ v ∈ usesB, u.key = v.key → u.block = v.block) ∧
    (scheme.keys.signings key events).Pairwise fun a b => ∀ usesA usesB,
      scheme.keys.usesOf key a = .ok usesA → scheme.keys.usesOf key b = .ok usesB →
        ∀ u ∈ usesA, ∀ v ∈ usesB, u.key.layer = 0 → u.key ≠ v.key := by
  obtain ⟨hcoherent, rfl⟩ := scheme.coherent_of_generated hkey
  refine ⟨fun a ha => ?_, fun a ha b hb usesA usesB husesA husesB u hu v hv hsame => ?_, ?_⟩
  · obtain ⟨hfollows, -⟩ := KeyKind.Laws.follows_of_mem_signings hcoherent events
    obtain ⟨uses, huses, -, hspec⟩ := scheme.useLaws.exists_usesOf (hfollows a ha)
    exact ⟨uses, huses, scheme.useLaws.signatures_eq huses, fun u hu =>
      ⟨(hspec u hu).1, (hspec u hu).2.1⟩⟩
  · exact scheme.useLaws.block_eq_of_key_eq hcoherent ha hb husesA husesB hu hv hsame
  · exact scheme.useLaws.lowest_key_ne hcoherent events

open Hypertree in
/-- The hypertree key with zero seeds signs, is reloaded, signs again and is erased. -/
theorem one_time_keys_used_once_smallestOrigin :
    ∃ (key : PrivateKey) (events : List KeyKind.Event),
      keyKind.Generated smallestOrigin.params key ∧
      events = [.request (.sign []), .reload, .request (.sign [0]), .request .erase] ∧
      (∀ a ∈ keyKind.signings key events, ∃ uses, keyKind.usesOf key a = .ok uses ∧
        uses.map OneTimeUse.signature = keyKind.oneTimeSignatures a.signature ∧
        ∀ u ∈ uses, u.block.length = smallestOrigin.params.digest.size ∧
          (PrivateKey.treeOf smallestOrigin.params key.record.seeds key.record.publicSeed
            u.key.layer u.key.tree).signLeaf u.block u.key.leaf = .ok u.signature) ∧
      (∀ a ∈ keyKind.signings key events, ∀ b ∈ keyKind.signings key events,
        ∀ usesA usesB, keyKind.usesOf key a = .ok usesA → keyKind.usesOf key b = .ok usesB →
          ∀ u ∈ usesA, ∀ v ∈ usesB, u.key = v.key → u.block = v.block) ∧
      (keyKind.signings key events).Pairwise fun a b => ∀ usesA usesB,
        keyKind.usesOf key a = .ok usesA → keyKind.usesOf key b = .ok usesB →
          ∀ u ∈ usesA, ∀ v ∈ usesB, u.key.layer = 0 → u.key ≠ v.key := by
  obtain ⟨key, hmade, -⟩ := PrivateKey.exists_ofSeeds smallestOrigin_wellSeeded
  exact ⟨key, _, .given _ _ hmade, rfl,
    one_time_keys_used_once .hypertree smallestOrigin.params key (.given _ _ hmade)
      [.request (.sign []), .reload, .request (.sign [0]), .request .erase]⟩

end Scheme

end MerkleSignature
