import MerkleSignature.KeyRecord
import MerkleSignature.KeyTree
import MerkleSignature.Signer

/-!
# The life of a private key

Single-tree keys and hypertree keys are used in the same way: they are made from seeds, asked to
sign, stored and read again, and erased in the end. What holds of such a life whatever the kind of
key is stated for a kind of key that fulfils a few laws. The main one is that a key signs as its
parameters and stored fields say, so that whatever else it keeps in memory does not show.
-/

namespace MerkleSignature

/-- The one-time key of a leaf, by its place in the hypertree. -/
structure OneTimeKey where
  layer : Nat
  tree : Nat
  leaf : Nat
  deriving DecidableEq

/-- A one-time signature, with the key that made it and the block that it signs. -/
structure OneTimeUse where
  key : OneTimeKey
  block : Bytes
  signature : Bytes
  deriving DecidableEq

/-- What can be done with private keys of one kind. -/
structure KeyKind where
  Params : Type
  Key : Type
  Signature : Type
  PublicKey : Type
  digest : Params → Digest
  /-- The number of signatures a key can make. -/
  capacity : Params → Nat
  /-- The tree with a given layer and number that given seeds generate. -/
  treeOf : Params → SecretSeeds → (publicSeed : Bytes) → (layer tree : Nat) → KeyTree
  params : Key → Params
  record : Key → KeyRecord
  /-- Whether two keys compare equal. -/
  same : Key → Key → Bool
  ofSeeds : Params → SecretSeeds → (publicSeed : Bytes) → Except Error Key
  generate : {σ : Type} → Params → RandomSource σ → σ → Except Error Key × σ
  sign : Key → Bytes → Except (Error × Key) (Signature × Key)
  remaining : Key → Nat
  encode : Key → Except Error Bytes
  decode : Params → Bytes → Except Error Key
  publicKey : Key → PublicKey
  erase : Key → Key
  oneTimeSignatures : Signature → List Bytes
  /-- The uses of one-time keys in a signature of a message, as a verifier reads them. -/
  uses : PublicKey → Bytes → Signature → Except Error (List OneTimeUse)

namespace KeyKind

variable (K : KeyKind)

/-- What a user can ask of a key. -/
inductive Request where
  | sign (message : Bytes)
  | remaining
  | encode
  | publicKey
  | erase

/-- What a key answers. -/
inductive Answer where
  | signed (outcome : Except Error K.Signature)
  | remaining (count : Nat)
  | encoded (outcome : Except Error Bytes)
  | publicKey (key : K.PublicKey)
  | erased

/-- What happens in the life of a key. -/
inductive Event where
  | request (r : Request)
  /-- The key is stored and read again, and what was read takes its place. -/
  | reload

/-- The answer of a key to a request, and the key as it is afterwards. -/
def ask (key : K.Key) : Request → K.Answer × K.Key
  | .sign message =>
    let (outcome, after) := splitOutcome (K.sign key message)
    (.signed outcome, after)
  | .remaining => (.remaining (K.remaining key), key)
  | .encode => (.encoded (K.encode key), key)
  | .publicKey => (.publicKey (K.publicKey key), key)
  | .erase => (.erased, K.erase key)

/-- Store a key and read it again. A key that cannot be stored and read stays as it is. -/
def reload (key : K.Key) : K.Key :=
  match K.encode key with
  | .error _ => key
  | .ok bytes =>
    match K.decode (K.params key) bytes with
    | .error _ => key
    | .ok after => after

/-- The answers that a key gives in the course of its life. -/
def answers (key : K.Key) : List Event → List K.Answer
  | [] => []
  | .request r :: rest => (K.ask key r).1 :: answers (K.ask key r).2 rest
  | .reload :: rest => answers (K.reload key) rest

/-- What is asked of a key, as if it was never stored. -/
def withoutReloads : List Event → List Event
  | [] => []
  | .request r :: rest => .request r :: withoutReloads rest
  | .reload :: rest => withoutReloads rest

/-- A signature that was returned, with the message and the key as it was before. -/
structure Signing where
  signer : K.Key
  message : Bytes
  signature : K.Signature

/-- The key after an event. -/
def next (key : K.Key) : Event → K.Key
  | .request r => (K.ask key r).2
  | .reload => K.reload key

/-- The signature that a key returns in an event. -/
def signing? (key : K.Key) : Event → Option K.Signing
  | .request (.sign message) =>
    match K.sign key message with
    | .ok (signature, _) => some ⟨key, message, signature⟩
    | .error _ => none
  | _ => none

/-- The signatures that a key returns in the course of its life, the first ones first. -/
def signings (key : K.Key) : List Event → List K.Signing
  | [] => []
  | event :: rest => (K.signing? key event).toList ++ signings (K.next key event) rest

/-- The keys that are made from seeds and then asked to sign, or stored and read again. -/
inductive Reachable (p : K.Params) : K.Key → Prop
  | made {key : K.Key} (seeds : SecretSeeds) (publicSeed : Bytes)
      (h : K.ofSeeds p seeds publicSeed = .ok key) : Reachable p key
  | signed {key : K.Key} (message : Bytes) (h : Reachable p key) :
      Reachable p (splitOutcome (K.sign key message)).2
  | reloaded {key after : K.Key} {bytes : Bytes} (h : Reachable p key)
      (stored : K.encode key = .ok bytes) (read : K.decode p bytes = .ok after) :
      Reachable p after

/-- The keys that are made from seeds, given or drawn from a random source. -/
inductive Generated (p : K.Params) (key : K.Key) : Prop
  | given (seeds : SecretSeeds) (publicSeed : Bytes)
      (h : K.ofSeeds p seeds publicSeed = .ok key)
  | drawn {σ : Type} (source : RandomSource σ) (state : σ)
      (h : (K.generate p source state).1 = .ok key)

/-- What makes the stored fields of a key decide how it behaves. -/
structure Laws (K : KeyKind) where
  /-- A coherent key remembers nothing but what its stored fields generate. -/
  Coherent : K.Key → Prop
  /-- The signature of a message that parameters and stored fields determine. -/
  signature : K.Params → KeyRecord → Bytes → Except Error K.Signature
  same_iff : ∀ {a b}, K.same a b = true ↔ K.params a = K.params b ∧ K.record a = K.record b
  generate_eq : ∀ {σ : Type} (p : K.Params) (source : RandomSource σ) (state : σ),
    ∃ seeds publicSeed, (K.generate p source state).1 = K.ofSeeds p seeds publicSeed
  coherent_of_ofSeeds : ∀ {p seeds publicSeed key}, K.ofSeeds p seeds publicSeed = .ok key →
    Coherent key ∧ K.params key = p
  remaining_eq : ∀ key, K.remaining key = K.capacity (K.params key) - (K.record key).index
  publicKey_congr : ∀ {a b}, K.params a = K.params b → (K.record a).root = (K.record b).root →
    (K.record a).publicSeed = (K.record b).publicSeed → K.publicKey a = K.publicKey b
  encode_congr : ∀ {a b}, K.params a = K.params b → K.record a = K.record b →
    K.encode a = K.encode b
  encode_exhausted : ∀ {key}, K.capacity (K.params key) ≤ (K.record key).index →
    ∃ e, K.encode key = .error e
  erase_eq : ∀ key, K.params (K.erase key) = K.params key ∧
    K.record (K.erase key) = ⟨K.capacity (K.params key), ⟨[], []⟩, (K.record key).publicSeed,
      (K.record key).root⟩
  sign_exhausted : ∀ {key}, K.capacity (K.params key) ≤ (K.record key).index → ∀ message,
    K.sign key message = .error (.keyExhausted (K.capacity (K.params key)), key)
  sign_coherent : ∀ {key}, Coherent key → (K.record key).index < K.capacity (K.params key) →
    ∀ message, ∃ s after, K.sign key message = .ok (s, after) ∧
      signature (K.params key) (K.record key) message = .ok s ∧ Coherent after ∧
      K.params after = K.params key ∧
      K.record after = { K.record key with index := (K.record key).index + 1 }
  reload_coherent : ∀ {key}, Coherent key →
    (K.record key).index < K.capacity (K.params key) →
    ∃ bytes after, K.encode key = .ok bytes ∧ K.decode (K.params key) bytes = .ok after ∧
      Coherent after ∧ K.params after = K.params key ∧ K.record after = K.record key

namespace Laws

variable {K : KeyKind} (L : Laws K) {key a b : K.Key}

/-- A key is coherent, or it cannot sign any more. -/
def Live (key : K.Key) : Prop := L.Coherent key ∨ K.capacity (K.params key) ≤ (K.record key).index

/-- An erased key cannot sign any more. -/
theorem exhausted_erase (L : Laws K) (key : K.Key) :
    K.capacity (K.params (K.erase key)) ≤ (K.record (K.erase key)).index := by
  obtain ⟨hparams, hrecord⟩ := L.erase_eq key
  exact Nat.le_of_eq (by rw [hparams, hrecord])

/-- Two keys that behave alike: each is coherent or cannot sign, and they have the same parameters
and stored fields. -/
structure Alike (a b : K.Key) : Prop where
  live_left : L.Live a
  live_right : L.Live b
  params_eq : K.params a = K.params b
  record_eq : K.record a = K.record b

variable {L}

/-- A live key with an index left is coherent. -/
theorem Live.coherent (h : L.Live key) (hindex : (K.record key).index < K.capacity (K.params key)) :
    L.Coherent key := h.resolve_right (Nat.not_le.2 hindex)

/-- Requests keep a key live. -/
theorem Live.sign (h : L.Live key) (message : Bytes) :
    L.Live (splitOutcome (K.sign key message)).2 ∧
      K.params (splitOutcome (K.sign key message)).2 = K.params key := by
  rcases Nat.lt_or_ge (K.record key).index (K.capacity (K.params key)) with hindex | hexhausted
  · obtain ⟨s, after, hsign, -, hafter, hparams, -⟩ :=
      L.sign_coherent (h.coherent hindex) hindex message
    rw [hsign]
    exact ⟨.inl hafter, hparams⟩
  · rw [L.sign_exhausted hexhausted]
    exact ⟨h, rfl⟩

/-- Whatever is asked of a key, it stays live and keeps its parameters. -/
theorem Live.ask (h : L.Live key) (r : Request) :
    L.Live (K.ask key r).2 ∧ K.params (K.ask key r).2 = K.params key := by
  cases r with
  | sign message => exact h.sign message
  | erase => exact ⟨.inr (L.exhausted_erase key), (L.erase_eq key).1⟩
  | remaining => exact ⟨h, rfl⟩
  | encode => exact ⟨h, rfl⟩
  | publicKey => exact ⟨h, rfl⟩

/-- A coherent key with an index left is stored and read again with the same stored fields. -/
theorem coherent_reload (hkey : L.Coherent key)
    (hindex : (K.record key).index < K.capacity (K.params key)) :
    L.Coherent (K.reload key) ∧ K.params (K.reload key) = K.params key ∧
      K.record (K.reload key) = K.record key := by
  obtain ⟨bytes, after, hstored, hread, hafter⟩ := L.reload_coherent hkey hindex
  have hreload : K.reload key = after := by
    rw [KeyKind.reload, hstored]
    dsimp only
    rw [hread]
  exact hreload ▸ hafter

/-- A key that cannot sign any more cannot be stored and stays as it is. -/
theorem reload_of_exhausted (L : Laws K) {key : K.Key}
    (hexhausted : K.capacity (K.params key) ≤ (K.record key).index) : K.reload key = key := by
  obtain ⟨e, hrefused⟩ := L.encode_exhausted hexhausted
  rw [KeyKind.reload, hrefused]

/-- A key that was stored and read again behaves like the key that was stored. -/
theorem Live.reload (h : L.Live key) : L.Alike (K.reload key) key := by
  rcases Nat.lt_or_ge (K.record key).index (K.capacity (K.params key)) with hindex | hexhausted
  · obtain ⟨hafter, hparams, hrecord⟩ := coherent_reload (h.coherent hindex) hindex
    exact ⟨.inl hafter, h, hparams, hrecord⟩
  · rw [L.reload_of_exhausted hexhausted]
    exact ⟨h, h, rfl, rfl⟩

theorem Alike.trans {c : K.Key} (hab : L.Alike a b) (hbc : L.Alike b c) : L.Alike a c :=
  ⟨hab.live_left, hbc.live_right, hab.params_eq.trans hbc.params_eq,
    hab.record_eq.trans hbc.record_eq⟩

/-- Keys that are alike sign alike. -/
theorem Alike.sign (h : L.Alike a b) (message : Bytes) :
    (splitOutcome (K.sign a message)).1 = (splitOutcome (K.sign b message)).1 ∧
      L.Alike (splitOutcome (K.sign a message)).2 (splitOutcome (K.sign b message)).2 := by
  rcases Nat.lt_or_ge (K.record a).index (K.capacity (K.params a)) with hindex | hexhausted
  · have hindex' : (K.record b).index < K.capacity (K.params b) := by
      rwa [← h.params_eq, ← h.record_eq]
    obtain ⟨s, after, hsign, hs, hafter, hparams, hrecord⟩ :=
      L.sign_coherent (h.live_left.coherent hindex) hindex message
    obtain ⟨s', after', hsign', hs', hafter', hparams', hrecord'⟩ :=
      L.sign_coherent (h.live_right.coherent hindex') hindex' message
    rw [h.params_eq, h.record_eq] at hs
    obtain rfl := Except.ok.inj (hs.symm.trans hs')
    rw [hsign, hsign']
    refine ⟨rfl, .inl hafter, .inl hafter', ?_, ?_⟩
    · exact hparams.trans (h.params_eq.trans hparams'.symm)
    · exact hrecord.trans (h.record_eq ▸ hrecord'.symm)
  · have hexhausted' : K.capacity (K.params b) ≤ (K.record b).index := by
      rwa [← h.params_eq, ← h.record_eq]
    rw [L.sign_exhausted hexhausted, L.sign_exhausted hexhausted', h.params_eq]
    exact ⟨rfl, h⟩

/-- Keys that are alike give the same answer to a request, and stay alike. -/
theorem Alike.ask (h : L.Alike a b) (r : Request) :
    (K.ask a r).1 = (K.ask b r).1 ∧ L.Alike (K.ask a r).2 (K.ask b r).2 := by
  cases r with
  | sign message =>
    obtain ⟨houtcome, hafter⟩ := h.sign message
    exact ⟨congrArg Answer.signed houtcome, hafter⟩
  | remaining =>
    refine ⟨congrArg Answer.remaining ?_, h⟩
    rw [L.remaining_eq, L.remaining_eq, h.params_eq, h.record_eq]
  | encode => exact ⟨congrArg Answer.encoded (L.encode_congr h.params_eq h.record_eq), h⟩
  | publicKey =>
    refine ⟨congrArg Answer.publicKey (L.publicKey_congr h.params_eq ?_ ?_), h⟩
    · rw [h.record_eq]
    · rw [h.record_eq]
  | erase =>
    obtain ⟨hparams, hrecord⟩ := L.erase_eq a
    obtain ⟨hparams', hrecord'⟩ := L.erase_eq b
    refine ⟨rfl, .inr (L.exhausted_erase a), .inr (L.exhausted_erase b), ?_, ?_⟩
    · exact hparams.trans (h.params_eq.trans hparams'.symm)
    · rw [h.params_eq, h.record_eq] at hrecord
      exact hrecord.trans hrecord'.symm

/-- Keys that are alike answer alike for the rest of their lives, whether or not they are stored and
read again in between. -/
theorem Alike.answers (h : L.Alike a b) (events : List Event) :
    K.answers a events = K.answers b (withoutReloads events) := by
  induction events generalizing a b with
  | nil => rfl
  | cons event events ih =>
    cases event with
    | request r =>
      obtain ⟨hanswer, hafter⟩ := h.ask r
      rw [KeyKind.answers, withoutReloads, KeyKind.answers, hanswer, ih hafter]
    | reload => exact ih (h.live_left.reload.trans h)

/-- A generated key is coherent and keeps its parameters. -/
theorem coherent_of_generated (L : Laws K) {p : K.Params} (h : K.Generated p key) :
    L.Coherent key ∧ K.params key = p := by
  cases h with
  | given seeds publicSeed h => exact L.coherent_of_ofSeeds h
  | drawn source state h =>
    obtain ⟨seeds, publicSeed, hseeds⟩ := L.generate_eq p source state
    exact L.coherent_of_ofSeeds (hseeds.symm.trans h)

/-- Every key that is made from seeds and then asked to sign or reloaded is live. -/
theorem live_of_reachable {p : K.Params} (h : K.Reachable p key) :
    L.Live key ∧ K.params key = p := by
  induction h with
  | made seeds publicSeed h =>
    obtain ⟨hcoherent, hparams⟩ := L.coherent_of_ofSeeds h
    exact ⟨.inl hcoherent, hparams⟩
  | signed message _ ih =>
    obtain ⟨hlive, hparams⟩ := ih.1.sign message
    exact ⟨hlive, hparams.trans ih.2⟩
  | @reloaded key after bytes _ stored read ih =>
    obtain ⟨hlive, rfl⟩ := ih
    have hreload : K.reload key = after := by
      rw [KeyKind.reload, stored]
      dsimp only
      rw [read]
    rw [← hreload]
    exact ⟨hlive.reload.live_left, hlive.reload.params_eq⟩

end Laws

end KeyKind

end MerkleSignature
