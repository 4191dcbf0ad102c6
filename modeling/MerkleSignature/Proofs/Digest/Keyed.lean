import MerkleSignature.Join
import MerkleSignature.Proofs.Outcome
import MerkleSignature.Seeds

/-!
# Keyed hashing of well-formed inputs

Keyed functions refuse keys and inputs of the wrong length and nothing else. What they are given
inside the scheme has the right length: seeds and earlier outputs have `n` bytes, and encoded
addresses have 32. So every call succeeds and yields `n` bytes again.
-/

namespace MerkleSignature

/-- A computation succeeds with a byte string of a given length. -/
def Yields (n : Nat) (x : Except Error Bytes) : Prop := ∃ value, x = .ok value ∧ value.length = n

/-- A byte string yields its length. -/
theorem yields_ok {n : Nat} {value : Bytes} (h : value.length = n) : Yields n (.ok value) :=
  ⟨value, rfl, h⟩

/-- What goes on from some bytes may rely on their number. -/
theorem Yields.bind {n m : Nat} {x : Except Error Bytes} {f : Bytes → Except Error Bytes}
    (hx : Yields n x) (hf : ∀ value : Bytes, value.length = n → Yields m (f value)) :
    Yields m (x >>= f) := by
  obtain ⟨value, rfl, hlength⟩ := hx
  exact hf value hlength

/-- Seeds of `n` bytes are accepted. -/
theorem checkSeeds_eq_ok {n : Nat} {seeds : SecretSeeds} {publicSeed : Bytes}
    (hsecret : seeds.secretSeed.length = n) (hprf : seeds.prfKey.length = n)
    (hpublic : publicSeed.length = n) : checkSeeds n seeds publicSeed = .ok () := by
  rw [checkSeeds, checkLength_eq_ok hsecret, checkLength_eq_ok hprf, checkLength_eq_ok hpublic]
  rfl

/-- Other seeds are refused. -/
theorem lengths_of_checkSeeds {n : Nat} {seeds : SecretSeeds} {publicSeed : Bytes}
    (h : checkSeeds n seeds publicSeed = .ok ()) :
    seeds.secretSeed.length = n ∧ seeds.prfKey.length = n ∧ publicSeed.length = n := by
  obtain ⟨hsecret, h⟩ := checkLength_bind_eq_ok_iff.1 h
  obtain ⟨hprf, hpublic⟩ := checkLength_bind_eq_ok_iff.1 h
  exact ⟨hsecret, hprf, length_eq_of_checkLength hpublic⟩

/-- Seeds that were drawn are accepted. -/
theorem checkSeeds_drawSeeds {σ : Type} (source : RandomSource σ) (n : Nat) (state : σ) :
    checkSeeds n (source.drawSeeds n state).1.1 (source.drawSeeds n state).1.2 = .ok () :=
  checkSeeds_eq_ok (source.length_draw ..) (source.length_draw ..) (source.length_draw ..)

namespace Digest

variable {d : Digest} {publicSeed left right key : Bytes}

/-- `PRF` hashes an `n`-byte key and 32 bytes of input. -/
theorem prf_eq_ok {input : Bytes} (hkey : key.length = d.size)
    (hinput : input.length = Address.size) :
    d.prf key input = .ok (d.keyed .derive key input) := by
  rw [prf, checkLength_eq_ok hkey, checkLength_eq_ok hinput]
  rfl

/-- `PRF` refuses keys of other lengths. -/
theorem length_key_of_prf {input value : Bytes} (h : d.prf key input = .ok value) :
    key.length = d.size :=
  (checkLength_bind_eq_ok_iff.1 h).1

/-- What `PRF` returns has `n` bytes. -/
theorem length_of_prf {input value : Bytes} (h : d.prf key input = .ok value) :
    value.length = d.size := by
  obtain ⟨-, h⟩ := checkLength_bind_eq_ok_iff.1 h
  obtain ⟨-, h⟩ := checkLength_bind_eq_ok_iff.1 h
  exact Except.ok.inj h ▸ length_keyed ..

/-- What `F` returns has `n` bytes. -/
theorem length_of_chainHash {input value : Bytes} (h : d.chainHash key input = .ok value) :
    value.length = d.size := by
  obtain ⟨-, h⟩ := checkLength_bind_eq_ok_iff.1 h
  obtain ⟨-, h⟩ := checkLength_bind_eq_ok_iff.1 h
  exact Except.ok.inj h ▸ length_keyed ..

/-- `PRF` yields `n` bytes. -/
theorem prf_yields {input : Bytes} (hkey : key.length = d.size)
    (hinput : input.length = Address.size) : Yields d.size (d.prf key input) := by
  rw [prf_eq_ok hkey hinput]
  exact yields_ok (length_keyed ..)

/-- `PRF` of an address yields `n` bytes. -/
theorem prfAddress_yields (hkey : key.length = d.size) (address : Address) :
    Yields d.size (d.prfAddress key address) :=
  prf_yields hkey (Address.length_encode address)

/-- `F` yields `n` bytes. -/
theorem chainHash_yields {input : Bytes} (hkey : key.length = d.size)
    (hinput : input.length = d.size) : Yields d.size (d.chainHash key input) := by
  rw [chainHash, checkLength_eq_ok hkey, checkLength_eq_ok hinput]
  exact yields_ok (length_keyed ..)

/-- `H` yields `n` bytes. -/
theorem nodeHash_yields {input : Bytes} (hkey : key.length = d.size)
    (hinput : input.length = 2 * d.size) : Yields d.size (d.nodeHash key input) := by
  rw [nodeHash, checkLength_eq_ok hkey, checkLength_eq_ok hinput]
  exact yields_ok (length_keyed ..)

/-- Joining two nodes yields a node. -/
theorem joinNodes_yields (hseed : publicSeed.length = d.size) (hleft : left.length = d.size)
    (hright : right.length = d.size) (address : Address) :
    Yields d.size (d.joinNodes left right publicSeed address) := by
  rw [joinNodes, checkLength_eq_ok hleft, checkLength_eq_ok hright]
  refine (prfAddress_yields hseed _).bind fun key hkey => ?_
  refine (prfAddress_yields hseed _).bind fun leftMask hleftMask => ?_
  refine (prfAddress_yields hseed _).bind fun rightMask hrightMask => ?_
  refine nodeHash_yields hkey ?_
  rw [List.length_append, Bytes.length_xor, Bytes.length_xor]
  omega

/-- The parent of two nodes is a node. -/
theorem length_of_joinNodes {address : Address} {parent : Bytes}
    (h : d.joinNodes left right publicSeed address = .ok parent) : parent.length = d.size := by
  obtain ⟨-, h⟩ := checkLength_bind_eq_ok_iff.1 h
  obtain ⟨-, h⟩ := checkLength_bind_eq_ok_iff.1 h
  obtain ⟨_, -, h⟩ := bind_eq_ok_iff.1 h
  obtain ⟨_, -, h⟩ := bind_eq_ok_iff.1 h
  obtain ⟨_, -, h⟩ := bind_eq_ok_iff.1 h
  obtain ⟨-, h⟩ := checkLength_bind_eq_ok_iff.1 h
  obtain ⟨-, h⟩ := checkLength_bind_eq_ok_iff.1 h
  exact Except.ok.inj h ▸ length_keyed ..

/-- The randomness of a signature has `n` bytes. -/
theorem messageRandomness_yields (hkey : key.length = d.size) (index : Nat) :
    Yields d.size (d.messageRandomness key index) :=
  prf_yields hkey (Bytes.length_toBigEndian ..)

/-- The block that is signed for a message has `n` bytes. -/
theorem messageDigest_yields {randomness root : Bytes} (hrandomness : randomness.length = d.size)
    (hroot : root.length = d.size) (index : Nat) (message : Bytes) :
    Yields d.size (d.messageDigest randomness root index message) := by
  have hkey : (randomness ++ root ++ Bytes.toBigEndian d.size index).length = 3 * d.size := by
    rw [List.length_append, List.length_append, Bytes.length_toBigEndian]
    omega
  rw [messageDigest, checkLength_eq_ok hrandomness, checkLength_eq_ok hroot, ok_bind, ok_bind,
    messageHash, checkLength_eq_ok hkey]
  exact yields_ok (length_keyed ..)

/-- What is signed for a message has `n` bytes. -/
theorem length_of_messageDigest {randomness root message block : Bytes} {index : Nat}
    (h : d.messageDigest randomness root index message = .ok block) : block.length = d.size := by
  obtain ⟨_, -, h⟩ := bind_eq_ok_iff.1 h
  obtain ⟨_, -, h⟩ := bind_eq_ok_iff.1 h
  obtain ⟨_, -, h⟩ := bind_eq_ok_iff.1 h
  exact Except.ok.inj h ▸ length_keyed ..

end Digest

end MerkleSignature
