import MerkleSignature.Proofs.Refusals
import MerkleSignature.Proofs.SignatureFormat

/-!
# No index is used twice

A key moves on to the next index before it computes anything for a signature. So a request uses up
one index, whatever comes of it, and changes nothing else of what is stored. This holds of every key
whatsoever: also when the traversal that it keeps lacks nodes or belongs to another tree, so that
signing fails on the way.

It follows that the signatures that a key returns have increasing indices, that there are not more
of them than the capacity allows, and that an erased key returns none.
-/

namespace MerkleSignature

namespace KeyKind

/-- What a request to sign does to a key with an index left, whatever comes of it: the index moves
on by one, nothing else that is stored changes, a signature has the index that was used up, and the
key does not report that it is exhausted. -/
structure UsesUpIndex (K : KeyKind) (indexOf : K.Signature → Nat) (key : K.Key)
    (result : Except (Error × K.Key) (K.Signature × K.Key)) : Prop where
  params_eq : K.params (splitOutcome result).2 = K.params key
  record_eq : K.record (splitOutcome result).2 =
    { K.record key with index := (K.record key).index + 1 }
  index_eq : ∀ s, (splitOutcome result).1 = .ok s → indexOf s = (K.record key).index
  neverExhausted : NeverExhausted (splitOutcome result).1

namespace UsesUpIndex

variable {K : KeyKind} {indexOf : K.Signature → Nat} {key after : K.Key}
  (hparams : K.params after = K.params key)
  (hrecord : K.record after = { K.record key with index := (K.record key).index + 1 })
include hparams hrecord

/-- A request that fails for another reason uses up an index if the key has moved on. -/
theorem failed {e : Error} (h : e.NotExhaustion) :
    K.UsesUpIndex indexOf key (.error (e, after)) where
  params_eq := hparams
  record_eq := hrecord
  index_eq _ hs := by contradiction
  neverExhausted := .error h

/-- A request that succeeds uses up the index that the signature has. -/
theorem signed {s : K.Signature} (h : indexOf s = (K.record key).index) :
    K.UsesUpIndex indexOf key (.ok (s, after)) where
  params_eq := hparams
  record_eq := hrecord
  index_eq _ hs := Except.ok.inj hs ▸ h
  neverExhausted := .ok s

end UsesUpIndex

/-- Keys that use up an index with every request to sign, and refuse to be stored when none is
left. -/
structure CountsIndices (K : KeyKind) (indexOf : K.Signature → Nat) : Prop where
  sign_of_lt : ∀ {key}, (K.record key).index < K.capacity (K.params key) → ∀ message,
    K.UsesUpIndex indexOf key (K.sign key message)
  encode_of_exhausted : ∀ {key}, K.capacity (K.params key) ≤ (K.record key).index →
    K.encode key = .error (.keyExhausted (K.capacity (K.params key)))

namespace Laws

variable {K : KeyKind} (L : Laws K) {key : K.Key}
include L

/-- An event does not change the parameters of a key that cannot sign any more. -/
theorem params_next_of_exhausted (hexhausted : K.capacity (K.params key) ≤ (K.record key).index)
    (event : Event) : K.params (K.next key event) = K.params key := by
  cases event with
  | reload => rw [next, L.reload_of_exhausted hexhausted]
  | request r =>
    cases r with
    | sign message =>
      rw [next, ask, L.sign_exhausted hexhausted]
      rfl
    | erase => exact (L.erase_eq key).1
    | remaining => rfl
    | encode => rfl
    | publicKey => rfl

/-- A key that cannot sign any more cannot sign after any events either. -/
theorem foldl_next_of_exhausted (hexhausted : K.capacity (K.params key) ≤ (K.record key).index)
    (events : List Event) : K.params (events.foldl K.next key) = K.params key ∧
      K.capacity (K.params key) ≤ (K.record (events.foldl K.next key)).index := by
  induction events generalizing key with
  | nil => exact ⟨rfl, hexhausted⟩
  | cons event events ih =>
    have hparams := L.params_next_of_exhausted hexhausted event
    obtain ⟨hkept, hindex⟩ := ih (L.next_of_exhausted hexhausted event).2
    rw [hparams] at hkept hindex
    exact ⟨hkept, hindex⟩

end Laws

namespace CountsIndices

variable {K : KeyKind} {indexOf : K.Signature → Nat} (C : K.CountsIndices indexOf) (L : Laws K)
include C L

/-- A key reports that it is exhausted when it has no index left, and only then. -/
theorem sign_eq_keyExhausted_iff (key : K.Key) (message : Bytes) :
    (∃ capacity after, K.sign key message = .error (.keyExhausted capacity, after)) ↔
      K.capacity (K.params key) ≤ (K.record key).index := by
  refine ⟨fun ⟨capacity, after, hsign⟩ => ?_, fun h => ⟨_, _, L.sign_exhausted h message⟩⟩
  by_contra hindex
  have hnever := (C.sign_of_lt (Nat.not_le.1 hindex) message).neverExhausted
  rw [hsign] at hnever
  exact hnever.of_error rfl capacity rfl

/-- The indices of the signatures that a key returns are taken, in order, from those that it has
left. -/
theorem indices_sublist (key : K.Key) (requests : List Request) :
    ((K.signings key (requests.map .request)).map fun a => indexOf a.signature).Sublist
      (List.range' (K.record key).index (K.capacity (K.params key) - (K.record key).index)) := by
  induction requests generalizing key with
  | nil => exact List.nil_sublist _
  | cons r requests ih =>
    cases r with
    | sign message =>
      rcases Nat.lt_or_ge (K.record key).index (K.capacity (K.params key)) with hindex | hexhausted
      · obtain ⟨hparams, hrecord, hsigned, -⟩ := C.sign_of_lt hindex message
        have hrest := ih (splitOutcome (K.sign key message)).2
        rw [hparams, hrecord] at hrest
        -- The index of this request stands before those that are left afterwards.
        rw [show K.capacity (K.params key) - (K.record key).index =
          K.capacity (K.params key) - ((K.record key).index + 1) + 1 by omega, List.range'_succ]
        rw [List.map_cons, signings, signing?, next, ask]
        cases hsign : K.sign key message with
        | error failure =>
          rw [hsign] at hrest
          exact hrest.cons _
        | ok result =>
          obtain ⟨s, after⟩ := result
          rw [hsign] at hrest hsigned
          change (indexOf s :: (K.signings after (requests.map .request)).map
            fun a => indexOf a.signature).Sublist _
          rw [hsigned s rfl]
          exact hrest.cons_cons _
      · rw [L.signings_of_exhausted hexhausted]
        exact List.nil_sublist _
    | erase =>
      have hnone : K.signings (K.erase key) (requests.map .request) = [] :=
        L.signings_of_exhausted (L.exhausted_erase key) _
      rw [List.map_cons, signings, next, ask, hnone]
      exact List.nil_sublist _
    | remaining => exact ih key
    | encode => exact ih key
    | publicKey => exact ih key

end CountsIndices

end KeyKind

namespace SingleTree

/-- A single-tree key uses up a leaf when it computes a signature, and when it fails to. -/
theorem PrivateKey.sign_usesUpIndex {key : PrivateKey}
    (hindex : key.record.index < key.params.leaves) (message : Bytes) :
    keyKind.UsesUpIndex Signature.index key (key.sign message) := by
  rw [PrivateKey.sign, if_pos hindex]
  dsimp only
  cases hparts : (key.withIndex (key.record.index + 1)).signParts key.record.index message with
  | error e => refine .failed ?_ ?_ ((neverExhausted_signParts ..).of_error hparts) <;> rfl
  | ok parts =>
    dsimp only
    cases hmove : (key.withIndex (key.record.index + 1)).traversal.advance
        (key.withIndex (key.record.index + 1)).keyTree.tree key.record.index with
    | error failure =>
      have hsort := (Traversal.neverExhausted_advance (KeyTree.neverExhausts _) ..).of_error hmove
      refine .failed ?_ ?_ hsort <;> rfl
    | ok traversal => refine .signed ?_ ?_ ?_ <;> rfl

/-- Single-tree keys use up an index with every request to sign. -/
theorem countsIndices : keyKind.CountsIndices Signature.index where
  sign_of_lt hindex message := PrivateKey.sign_usesUpIndex hindex message
  encode_of_exhausted hexhausted := if_neg (Nat.not_lt.2 hexhausted)

end SingleTree

namespace Hypertree

/-- A hypertree key uses up an index when it computes a signature, and when it fails to on any
layer. -/
theorem PrivateKey.sign_usesUpIndex {key : PrivateKey}
    (hindex : key.record.index < key.params.capacity) (message : Bytes) :
    keyKind.UsesUpIndex Signature.index key (key.sign message) := by
  rw [PrivateKey.sign, if_pos hindex]
  dsimp only
  cases hhash : (key.withIndex (key.record.index + 1)).hashMessage key.record.index message with
  | error e => refine .failed ?_ ?_ ((neverExhausted_hashMessage ..).of_error hhash) <;> rfl
  | ok hashed =>
    dsimp only
    cases hlowest : (key.withIndex (key.record.index + 1)).signBottom key.record.index hashed.2 with
    | error failure =>
      refine .failed ?_ ?_ ((neverExhausted_signBottom ..).of_error hlowest) <;> rfl
    | ok lowest =>
      dsimp only
      split
      · rename_i failure upper hupper
        refine .failed ?_ ?_ ((neverExhausted_signUpper ..).of_error hupper) <;> rfl
      · refine .signed ?_ ?_ ?_ <;> rfl

/-- Hypertree keys use up an index with every request to sign. -/
theorem countsIndices : keyKind.CountsIndices Signature.index where
  sign_of_lt hindex message := PrivateKey.sign_usesUpIndex hindex message
  encode_of_exhausted hexhausted := if_neg (Nat.not_lt.2 hexhausted)

end Hypertree

namespace Scheme

/-- The index of a signature. -/
def signatureIndex (scheme : Scheme) (s : scheme.keys.Signature) : Nat :=
  (scheme.signatures.parts s).index

/-- Keys of both kinds use up an index with every request to sign. -/
theorem countsIndices : (scheme : Scheme) → scheme.keys.CountsIndices scheme.signatureIndex
  | singleTree => SingleTree.countsIndices
  | hypertree => Hypertree.countsIndices

/-- Indices are used up whatever comes of a request, and are never used twice. Whatever a key
remembers, also when its traversals lack nodes: the key reports that it is exhausted, and stays as
it is, exactly when its index is not below the capacity. Otherwise a request to sign moves the index
on by one, whether it succeeds or fails, and changes nothing else that is stored; a signature has
the index that was used up. Erasing moves the index to the capacity. So the signatures that a key
returns have increasing indices, and there are at most as many as it has indices left. After it was
erased it returns none and cannot be stored, whatever else happens to it. -/
theorem indices_used_once (scheme : Scheme) (key : scheme.keys.Key) :
    (∀ message,
      (scheme.keys.sign key message = .error (.keyExhausted
          (scheme.keys.capacity (scheme.keys.params key)), key) ↔
        scheme.keys.capacity (scheme.keys.params key) ≤ (scheme.keys.record key).index) ∧
      ((∃ capacity after,
          scheme.keys.sign key message = .error (.keyExhausted capacity, after)) ↔
        scheme.keys.capacity (scheme.keys.params key) ≤ (scheme.keys.record key).index) ∧
      ((scheme.keys.record key).index < scheme.keys.capacity (scheme.keys.params key) →
        scheme.keys.UsesUpIndex scheme.signatureIndex key (scheme.keys.sign key message))) ∧
    (scheme.keys.record (scheme.keys.erase key)).index =
      scheme.keys.capacity (scheme.keys.params key) ∧
    (∀ requests : List KeyKind.Request,
      ((scheme.keys.signings key (requests.map .request)).Pairwise fun a b =>
        scheme.signatureIndex a.signature < scheme.signatureIndex b.signature) ∧
      (scheme.keys.signings key (requests.map .request)).length ≤
        scheme.keys.capacity (scheme.keys.params key) - (scheme.keys.record key).index) ∧
    ∀ events,
      scheme.keys.signings (scheme.keys.erase key) events = [] ∧
      scheme.keys.encode (events.foldl scheme.keys.next (scheme.keys.erase key)) =
        .error (.keyExhausted (scheme.keys.capacity (scheme.keys.params key))) := by
  have hiff := scheme.countsIndices.sign_eq_keyExhausted_iff scheme.laws key
  obtain ⟨hparams, hrecord⟩ := scheme.laws.erase_eq key
  have herased := scheme.laws.exhausted_erase key
  refine ⟨fun message => ⟨⟨fun h => (hiff message).1 ⟨_, _, h⟩,
      fun h => scheme.laws.sign_exhausted h message⟩, hiff message,
      fun hindex => scheme.countsIndices.sign_of_lt hindex message⟩,
    by rw [hrecord], fun requests => ?_, fun events => ?_⟩
  · have hindices := scheme.countsIndices.indices_sublist scheme.laws key requests
    refine ⟨List.pairwise_map.1 (List.Pairwise.sublist hindices List.pairwise_lt_range'), ?_⟩
    have hlength := hindices.length_le
    rwa [List.length_map, List.length_range'] at hlength
  · obtain ⟨hkept, hexhausted⟩ := scheme.laws.foldl_next_of_exhausted herased events
    rw [← hkept] at hexhausted
    refine ⟨scheme.laws.signings_of_exhausted herased events, ?_⟩
    rw [scheme.countsIndices.encode_of_exhausted hexhausted, hkept, hparams]

end Scheme

end MerkleSignature
