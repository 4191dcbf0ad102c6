import MerkleSignature.Proofs.Bytes
import MerkleSignature.Proofs.Digest.Keyed
import MerkleSignature.Winternitz.OneTime

/-!
# One-time signatures are recovered

Steps on a hash chain compose: who walks on from the element that a signature reveals arrives where
the owner of the key arrives from the secret element. A signature therefore commits to the public
key of the leaf that made it, whatever block it signs, and is valid for that key.
-/

namespace MerkleSignature.Winternitz

/-- The digits of a block of `n` bytes can be computed, one for each chain, and each of them is a
position on its chain. -/
theorem Params.exists_messageDigits (p : Params) {block : Bytes} (hblock : block.length = p.n) :
    ∃ digits, p.messageDigits block = .ok digits ∧ digits.length = p.length ∧
      ∀ digit ∈ digits, digit ≤ p.w - 1 := by
  refine ⟨Bytes.digits p.digitBits p.messageLength block ++
      p.checksumDigits (Bytes.digits p.digitBits p.messageLength block),
    ?_, ?_, fun digit hdigit => ?_⟩
  · rw [messageDigits, checkLength_eq_ok hblock]
    rfl
  · rw [List.length_append, Bytes.length_digits, checksumDigits, Bytes.length_digits]
    rfl
  · have hlt : digit < 2 ^ p.digitBits := by
      rcases List.mem_append.1 hdigit with hmessage | hchecksum
      · exact Bytes.digits_lt hmessage
      · exact Bytes.digits_lt hchecksum
    exact Nat.le_sub_one_of_lt hlt

namespace OneTime

variable {s : OneTime} {position : TreePosition} {leaf i : Nat}

/-- A step leads to an element of `n` bytes. -/
theorem next_yields (hseed : s.publicSeed.length = s.digest.size) {element : Bytes}
    (helement : element.length = s.digest.size) (step : Nat) :
    Yields s.digest.size (s.next position leaf i step element) := by
  refine (Digest.prfAddress_yields hseed _).bind fun key hkey => ?_
  refine (Digest.prfAddress_yields hseed _).bind fun mask hmask => ?_
  refine Digest.chainHash_yields hkey ?_
  rw [Bytes.length_xor]
  omega

/-- A walk leads to an element of `n` bytes. -/
theorem walk_yields (hseed : s.publicSeed.length = s.digest.size) (position : TreePosition)
    (leaf i : Nat) {element : Bytes} (helement : element.length = s.digest.size)
    (start steps : Nat) :
    Yields s.digest.size (s.walk position leaf i start steps element) := by
  induction steps generalizing start element with
  | zero => exact yields_ok helement
  | succ steps ih =>
    exact (next_yields hseed helement start).bind fun following hfollowing =>
      ih hfollowing (start + 1)

/-- A walk of some steps and then of some more is a walk of all of them. -/
theorem walk_add (start first second : Nat) (element : Bytes) :
    s.walk position leaf i start (first + second) element =
      s.walk position leaf i start first element >>=
        s.walk position leaf i (start + first) second := by
  induction first generalizing start element with
  | zero =>
    rw [Nat.zero_add]
    rfl
  | succ first ih =>
    rw [show first + 1 + second = first + second + 1 by omega, walk, walk, bind_assoc]
    refine bind_congr fun following => ?_
    rw [ih, show start + 1 + first = start + (first + 1) by omega]

/-- Within a chain and from an element of `n` bytes a chain is a walk. -/
theorem chain_eq_walk {element : Bytes} {start steps : Nat}
    (hfit : start + steps ≤ s.params.w - 1) (helement : element.length = s.digest.size) :
    s.chain element start steps position leaf i = s.walk position leaf i start steps element := by
  rw [chain, if_neg (Nat.not_lt.2 hfit),
    checkLength_eq_ok (show element.length = s.params.n from helement), ok_bind]

/-- The element at a position of the chain that starts at a secret element. -/
def elementAt (s : OneTime) (position : TreePosition) (leaf i : Nat) (secret : Bytes)
    (step : Nat) : Bytes :=
  (s.walk position leaf i 0 step secret).toOption.getD []

section Chains

variable (hseed : s.publicSeed.length = s.digest.size) {secret : Bytes}
  (hsecret : secret.length = s.digest.size)
include hseed hsecret

/-- A walk from the secret element arrives at the element of its position, which has `n` bytes. -/
theorem walk_eq_ok (position : TreePosition) (leaf i step : Nat) :
    s.walk position leaf i 0 step secret = .ok (s.elementAt position leaf i secret step) ∧
      (s.elementAt position leaf i secret step).length = s.digest.size := by
  obtain ⟨element, helement, hlength⟩ :=
    walk_yields hseed position leaf i hsecret 0 step
  have hvalue : s.elementAt position leaf i secret step = element := by
    rw [elementAt, helement]
    rfl
  exact ⟨hvalue ▸ helement, hvalue ▸ hlength⟩

/-- From the element of a position a chain leads on to the element of a later position. -/
theorem chain_eq_ok (position : TreePosition) (leaf i : Nat) {start steps : Nat}
    (hfit : start + steps ≤ s.params.w - 1) :
    s.chain (s.elementAt position leaf i secret start) start steps position leaf i =
      .ok (s.elementAt position leaf i secret (start + steps)) := by
  obtain ⟨hstart, hlength⟩ := walk_eq_ok hseed hsecret position leaf i start
  have hwalk := (walk_eq_ok hseed hsecret position leaf i (start + steps)).1
  rw [walk_add, hstart, ok_bind, Nat.zero_add] at hwalk
  rw [chain_eq_walk hfit hlength, hwalk]

/-- From the secret element itself a chain leads to every position. -/
theorem chain_secret_eq_ok (position : TreePosition) (leaf i : Nat) {step : Nat}
    (hfit : step ≤ s.params.w - 1) :
    s.chain secret 0 step position leaf i = .ok (s.elementAt position leaf i secret step) := by
  have hchain := chain_eq_ok hseed hsecret position leaf i (show 0 + step ≤ s.params.w - 1 by omega)
  rwa [Nat.zero_add] at hchain

end Chains

/-- The secret elements of a leaf: one per chain, each of `n` bytes. -/
theorem exists_secretElements {secretSeed : Bytes} (hsecret : secretSeed.length = s.digest.size)
    (position : TreePosition) (leaf : Nat) :
    ∃ elements, s.secretElements secretSeed position leaf = .ok elements ∧
      elements.length = s.params.length ∧ ∀ element ∈ elements, element.length = s.digest.size := by
  obtain ⟨seed, hseed, hlength⟩ :=
    Digest.prfAddress_yields hsecret (position.oneTimeAddress leaf 0 0)
  refine ⟨(List.range s.params.length).map fun i =>
    s.digest.keyed .derive seed (Bytes.toBigEndian Address.size i), ?_, ?_, ?_⟩
  · rw [secretElements, leafSeed, hseed, ok_bind]
    exact mapM_eq_ok_map fun i _ => Digest.prf_eq_ok hlength (Bytes.length_toBigEndian ..)
  · rw [List.length_map, List.length_range]
  · intro element helement
    obtain ⟨i, -, rfl⟩ := List.mem_map.1 helement
    exact Digest.length_keyed ..

/-- A public key can be computed only from seeds of `n` bytes. -/
theorem lengths_of_publicKey {secretSeed publicKey : Bytes}
    (h : s.publicKey secretSeed position leaf = .ok publicKey) :
    secretSeed.length = s.digest.size ∧ s.publicSeed.length = s.digest.size := by
  obtain ⟨elements, helements, h⟩ := bind_eq_ok_iff.1 h
  obtain ⟨ends, hends, -⟩ := bind_eq_ok_iff.1 h
  obtain ⟨seed, hseed, helements⟩ := bind_eq_ok_iff.1 helements
  refine ⟨Digest.length_key_of_prf hseed, ?_⟩
  -- There is a first chain, and its first step takes a key from the public seed.
  obtain ⟨others, hlength⟩ : ∃ others, s.params.length = others + 1 :=
    ⟨s.params.messageLength + Nat.log2 (largestChecksum s.params.n s.params.width) /
      s.params.digitBits, rfl⟩
  obtain ⟨steps, hsteps⟩ : ∃ steps, s.params.w - 1 = steps + 1 := by
    change ∃ steps, s.width.base - 1 = steps + 1
    cases s.width <;> exact ⟨_, rfl⟩
  rw [hlength, List.range_succ_eq_map, List.mapM_cons] at helements
  obtain ⟨first, -, helements⟩ := bind_eq_ok_iff.1 helements
  obtain ⟨rest, -, helements⟩ := bind_eq_ok_iff.1 helements
  obtain rfl : first :: rest = elements := Except.ok.inj helements
  rw [List.zipIdx_cons, List.mapM_cons] at hends
  obtain ⟨last, hchain, -⟩ := bind_eq_ok_iff.1 hends
  dsimp only at hchain
  rw [chain, if_neg (by omega), hsteps] at hchain
  obtain ⟨_, -, hwalk⟩ := bind_eq_ok_iff.1 hchain
  obtain ⟨following, hnext, -⟩ := bind_eq_ok_iff.1 hwalk
  obtain ⟨chainKey, hkey, -⟩ := bind_eq_ok_iff.1 hnext
  exact Digest.length_key_of_prf hkey

/-- The elements of the chains of some secret elements at given positions. -/
def elementsAt (s : OneTime) (position : TreePosition) (leaf : Nat) (elements : List Bytes)
    (steps : List Nat) : List Bytes :=
  (elements.zip steps).mapIdx fun i entry => s.elementAt position leaf i entry.1 entry.2

/-- The public elements of the chains of some secret elements. -/
def ends (s : OneTime) (position : TreePosition) (leaf : Nat) (elements : List Bytes) :
    List Bytes :=
  s.elementsAt position leaf elements (List.replicate s.params.length (s.params.w - 1))

/-- There are as many elements as chains. -/
theorem length_elementsAt {elements : List Bytes} {steps : List Nat}
    (hlength : elements.length = s.params.length) (hsteps : steps.length = s.params.length) :
    (s.elementsAt position leaf elements steps).length = s.params.length := by
  rw [elementsAt, List.length_mapIdx, List.length_zip, hlength, hsteps, Nat.min_self]

section Elements

variable (hseed : s.publicSeed.length = s.digest.size) {elements : List Bytes}
  (helements : ∀ element ∈ elements, element.length = s.digest.size)
include hseed helements

/-- Every element of the chains has `n` bytes. -/
theorem length_of_mem_elementsAt {steps : List Nat} {element : Bytes}
    (h : element ∈ s.elementsAt position leaf elements steps) : element.length = s.digest.size := by
  obtain ⟨i, hi⟩ := List.mem_iff_getElem?.1 h
  rw [elementsAt, List.getElem?_mapIdx, Option.map_eq_some_iff] at hi
  obtain ⟨entry, hentry, rfl⟩ := hi
  have hsecret := helements entry.1 (List.of_mem_zip (List.mem_of_getElem? hentry)).1
  exact (walk_eq_ok hseed hsecret position leaf i entry.2).2

variable (hlength : elements.length = s.params.length) {secretSeed : Bytes}
  (hsecretElements : s.secretElements secretSeed position leaf = .ok elements)
include hlength hsecretElements

/-- The public key of a leaf is the ends of its chains. -/
theorem publicKey_eq_ok :
    s.publicKey secretSeed position leaf = .ok (s.ends position leaf elements).flatten := by
  rw [publicKey, hsecretElements, ok_bind, mapM_eq_ok_of_getElem (s.ends position leaf elements)]
  · rfl
  · rw [List.length_zipIdx, ends, length_elementsAt hlength List.length_replicate, hlength]
  · intro i hx hy
    rw [List.length_zipIdx] at hx
    have hchain := chain_secret_eq_ok hseed (helements _ (List.getElem_mem hx)) position leaf i
      (Nat.le_refl (s.params.w - 1))
    simpa [ends, elementsAt] using hchain

/-- A signature of a leaf is the elements of its chains at the positions of the digits. -/
theorem sign_eq_ok {block : Bytes} {digits : List Nat}
    (hdigits : s.params.messageDigits block = .ok digits)
    (hcount : digits.length = s.params.length) (hbound : ∀ digit ∈ digits, digit ≤ s.params.w - 1) :
    s.sign block secretSeed position leaf =
      .ok (s.elementsAt position leaf elements digits).flatten := by
  rw [sign, hdigits, ok_bind, hsecretElements, ok_bind,
    mapM_eq_ok_of_getElem (s.elementsAt position leaf elements digits)]
  · rfl
  · rw [List.length_zipIdx, length_elementsAt hlength hcount, List.length_zip, hlength, hcount,
      Nat.min_self]
  · intro i hx hy
    rw [List.length_zipIdx, List.length_zip] at hx
    have hchain := chain_secret_eq_ok hseed
      (helements _ (List.getElem_mem (show i < elements.length by omega))) position leaf i
      (hbound _ (List.getElem_mem (show i < digits.length by omega)))
    simpa [elementsAt] using hchain

omit hsecretElements in
/-- From the elements that a signature reveals the ends of the chains are recovered. -/
theorem recover_eq_ok {block : Bytes} {digits : List Nat}
    (hdigits : s.params.messageDigits block = .ok digits)
    (hcount : digits.length = s.params.length) (hbound : ∀ digit ∈ digits, digit ≤ s.params.w - 1) :
    s.recover (s.elementsAt position leaf elements digits).flatten block position leaf =
      .ok (s.ends position leaf elements).flatten := by
  have huniform : ∀ element ∈ s.elementsAt position leaf elements digits,
      element.length = s.params.n :=
    fun element h => length_of_mem_elementsAt hseed helements h
  have hrevealed : (s.elementsAt position leaf elements digits).length = s.params.length :=
    length_elementsAt hlength hcount
  have hsize : (s.elementsAt position leaf elements digits).flatten.length =
      s.params.signatureSize := by
    rw [length_flatten_of_forall huniform, hrevealed]
    exact (Params.signatureSize_ofDigest s.digest s.width).symm
  rw [recover, checkLength_eq_ok hsize, ok_bind, hdigits, ok_bind,
    chunks_flatten (show 0 < s.params.n from s.digest.size_pos) huniform,
    mapM_eq_ok_of_getElem (s.ends position leaf elements)]
  · rfl
  · rw [List.length_zipIdx, ends, length_elementsAt hlength List.length_replicate, List.length_zip,
      hrevealed, hcount, Nat.min_self]
  · intro i hx hy
    rw [List.length_zipIdx, List.length_zip, hrevealed, hcount, Nat.min_self] at hx
    have hdigit := hbound _ (List.getElem_mem (show i < digits.length by omega))
    have hchain := chain_eq_ok hseed
      (helements _ (List.getElem_mem (show i < elements.length by omega))) position leaf i
      (show digits[i] + (s.params.w - 1 - digits[i]) ≤ s.params.w - 1 by omega)
    rw [show digits[i] + (s.params.w - 1 - digits[i]) = s.params.w - 1 by omega] at hchain
    simpa [ends, elementsAt] using hchain

end Elements

/-- The public key of a leaf has one element of `n` bytes per chain. -/
theorem publicKey_yields (hseed : s.publicSeed.length = s.digest.size) {secretSeed : Bytes}
    (hsecret : secretSeed.length = s.digest.size) (position : TreePosition) (leaf : Nat) :
    Yields (s.params.length * s.digest.size) (s.publicKey secretSeed position leaf) := by
  obtain ⟨elements, hsecretElements, hlength, helements⟩ :=
    exists_secretElements hsecret position leaf
  refine ⟨_, publicKey_eq_ok hseed helements hlength hsecretElements, ?_⟩
  rw [ends, length_flatten_of_forall fun element h => length_of_mem_elementsAt hseed helements h,
    length_elementsAt hlength List.length_replicate]

/-- The public key of a leaf consists of `n`-byte elements, and there is at least one. -/
theorem exists_publicKey (hseed : s.publicSeed.length = s.digest.size) {secretSeed : Bytes}
    (hsecret : secretSeed.length = s.digest.size) (position : TreePosition) (leaf : Nat) :
    ∃ publicKey, s.publicKey secretSeed position leaf = .ok publicKey ∧ publicKey ≠ [] ∧
      s.digest.size ∣ publicKey.length := by
  obtain ⟨publicKey, hpublicKey, hsize⟩ := publicKey_yields hseed hsecret position leaf
  refine ⟨publicKey, hpublicKey, fun hnil => ?_, ?_⟩
  · rw [hnil, List.length_nil, eq_comm, Nat.mul_eq_zero] at hsize
    have hpos := s.digest.size_pos
    have hchains : 0 < s.params.length := Nat.succ_pos _
    omega
  · rw [hsize]
    exact Nat.dvd_mul_left _ _

/-- A leaf can sign every block of `n` bytes, and its signature commits to its public key. -/
theorem recover_sign (hseed : s.publicSeed.length = s.digest.size) {secretSeed block : Bytes}
    (hsecret : secretSeed.length = s.digest.size) (hblock : block.length = s.digest.size)
    (position : TreePosition) (leaf : Nat) :
    ∃ signature, s.sign block secretSeed position leaf = .ok signature ∧
      s.recover signature block position leaf = s.publicKey secretSeed position leaf := by
  obtain ⟨elements, hsecretElements, hlength, helements⟩ :=
    exists_secretElements hsecret position leaf
  obtain ⟨digits, hdigits, hcount, hbound⟩ := s.params.exists_messageDigits hblock
  refine ⟨_, sign_eq_ok hseed helements hlength hsecretElements hdigits hcount hbound, ?_⟩
  rw [publicKey_eq_ok hseed helements hlength hsecretElements]
  exact recover_eq_ok hseed helements hlength hdigits hcount hbound

/-- A signature has one element of `n` bytes per chain. -/
theorem sign_yields (hseed : s.publicSeed.length = s.digest.size) {secretSeed block : Bytes}
    (hsecret : secretSeed.length = s.digest.size) (hblock : block.length = s.digest.size)
    (position : TreePosition) (leaf : Nat) :
    Yields (s.params.length * s.digest.size) (s.sign block secretSeed position leaf) := by
  obtain ⟨elements, hsecretElements, hlength, helements⟩ :=
    exists_secretElements hsecret position leaf
  obtain ⟨digits, hdigits, hcount, hbound⟩ := s.params.exists_messageDigits hblock
  rw [sign_eq_ok hseed helements hlength hsecretElements hdigits hcount hbound]
  apply yields_ok
  rw [length_flatten_of_forall fun element h => length_of_mem_elementsAt hseed helements h,
    length_elementsAt hlength hcount]

/-- With seeds of `n` bytes every leaf signs every block of `n` bytes. From the signature and the
block the public key of the leaf is recovered, so the signature is valid for that key. -/
theorem verify_sign (s : OneTime) {secretSeed block : Bytes}
    (hseed : s.publicSeed.length = s.digest.size) (hsecret : secretSeed.length = s.digest.size)
    (hblock : block.length = s.digest.size) (position : TreePosition) (leaf : Nat) :
    ∃ signature publicKey, s.sign block secretSeed position leaf = .ok signature ∧
      signature.length = s.params.length * s.digest.size ∧
      s.publicKey secretSeed position leaf = .ok publicKey ∧
      s.recover signature block position leaf = .ok publicKey ∧
      s.verify signature block publicKey position leaf = .ok true := by
  obtain ⟨signature, hsign, hrecover⟩ := recover_sign hseed hsecret hblock position leaf
  obtain ⟨publicKey, hpublicKey, -⟩ := publicKey_yields hseed hsecret position leaf
  obtain ⟨_, hsign', hsize⟩ := sign_yields hseed hsecret hblock position leaf
  obtain rfl := Except.ok.inj (hsign.symm.trans hsign')
  rw [hpublicKey] at hrecover
  refine ⟨signature, publicKey, hsign, hsize, hpublicKey, hrecover, ?_⟩
  simp [verify, hrecover]

/-- One-time signatures with the most chains, 261 of them: blocks of 64 bytes in base 4. -/
def mostChains : OneTime := ⟨.sha512, .four, List.replicate 64 0⟩

/-- A leaf of some tree above the bottom layer signs the block of largest bytes with all 261
chains. -/
theorem verify_sign_mostChains :
    mostChains.params.length = 261 ∧ ∃ signature publicKey,
      mostChains.sign (List.replicate 64 255) (List.replicate 64 1) ⟨1, 2⟩ 3 = .ok signature ∧
      signature.length = mostChains.params.length * Digest.sha512.size ∧
      mostChains.publicKey (List.replicate 64 1) ⟨1, 2⟩ 3 = .ok publicKey ∧
      mostChains.recover signature (List.replicate 64 255) ⟨1, 2⟩ 3 = .ok publicKey ∧
      mostChains.verify signature (List.replicate 64 255) publicKey ⟨1, 2⟩ 3 = .ok true := by
  have hlength (byte : UInt8) :
      (List.replicate 64 byte).length = mostChains.digest.size := List.length_replicate
  exact ⟨by decide, verify_sign mostChains (hlength 0) (hlength 1) (hlength 255) ⟨1, 2⟩ 3⟩

end OneTime

end MerkleSignature.Winternitz
