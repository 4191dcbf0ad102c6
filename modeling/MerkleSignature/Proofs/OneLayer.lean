import MerkleSignature.Proofs.Scheme

/-!
# Hypertrees of one layer

A hypertree of one layer consists of one tree, so it is a single tree. The two kinds of keys keep
and compute different things all the same: the one keeps a traversal from the start, the other
restores the lowest tree when it first signs, splits every index into a tree and a leaf, and checks
signatures layer by layer. None of this shows: a one-layer key gives the answers of the single-tree
key with the same seeds for the rest of its life, and its public key accepts the same signatures.
-/

namespace MerkleSignature

namespace Hypertree

/-- Every index below the number of leaves selects the only tree, and the leaf with this index. -/
theorem splitIndex_of_lt {height index : Nat} (hheight : height ≤ maxTreeHeight)
    (hindex : index < 2 ^ height) : splitIndex index height 0 = (0, index) := by
  have hword : index < 2 ^ leafBits :=
    Nat.lt_of_lt_of_le hindex (Nat.pow_le_pow_right (by decide) (hheight.trans (by decide)))
  rw [splitIndex, Nat.zero_add, Nat.one_mul, Nat.zero_mul, Nat.shiftRight_zero,
    Nat.mod_eq_of_lt hindex, Nat.mod_eq_of_lt hword, Nat.shiftRight_eq_div_pow,
    Nat.div_eq_of_lt hindex]

/-- Climbing one layer is recovering the root of one tree. -/
theorem recoverLayers_singleton (s : Winternitz.OneTime) {height index : Nat}
    (hheight : height ≤ maxTreeHeight) (hindex : index < 2 ^ height) (block : Bytes)
    (r : ReducedSignature) :
    PublicKey.recoverLayers s height index 0 block [r] =
      r.recoverRoot s block {} index := by
  rw [PublicKey.recoverLayers, splitIndex_of_lt hheight hindex]
  exact bind_pure _

end Hypertree

namespace SingleTree

open MerkleTree

/-- The hypertree parameters with the tree as the only layer. -/
def Params.oneLayer (p : Params) : Hypertree.Params where
  digest := p.digest
  width := p.width
  treeHeight := p.height
  layers := 1
  minKeyHeight_le := p.height_mem.1
  treeHeight_le := p.height_mem.2
  layers_pos := Nat.one_pos
  totalHeight_le := by
    rw [Nat.mul_one]
    exact Nat.le_trans p.height_mem.2 (by decide)

/-- The signature as one of a one-layer hypertree. -/
def Signature.oneLayer (p : Params) (s : Signature) : Hypertree.Signature :=
  ⟨p.oneLayer, s.index, s.randomness, [s.reduced]⟩

/-- The public key as one of a one-layer hypertree. -/
def PublicKey.oneLayer (key : PublicKey) : Hypertree.PublicKey :=
  ⟨key.params.oneLayer, key.root, key.publicSeed⟩

/-- The answer that a one-layer key gives in place of an answer of a single-tree key. -/
def oneLayerAnswer (p : Params) : keyKind.Answer → Hypertree.keyKind.Answer
  | .signed outcome => .signed (outcome.map (Signature.oneLayer p))
  | .remaining count => .remaining count
  | .encoded outcome => .encoded outcome
  | .publicKey key => .publicKey key.oneLayer
  | .erased => .erased

/-- One layer is accepted for the heights for which a single tree is, and refused alike. -/
theorem Params.new_oneLayer (digest : Digest) {height : Nat}
    (hheight : height ≤ Hypertree.maxTotalHeight) (w : Nat) :
    Hypertree.Params.new digest height 1 w =
      (Params.new digest height w).map Params.oneLayer := by
  have hlayers : 0 < 1 ∧ height % 1 = 0 := ⟨Nat.one_pos, Nat.mod_one height⟩
  rw [Hypertree.Params.new, Params.new]
  cases Winternitz.Width.ofBase w with
  | error e => rfl
  | ok width =>
    rw [ok_bind, ok_bind, dif_pos hlayers, dif_pos hheight]
    dsimp only
    by_cases h : minKeyHeight ≤ height ∧ height ≤ maxTreeHeight
    · have hdiv : minKeyHeight ≤ height / 1 ∧ height / 1 ≤ maxTreeHeight := by
        rwa [Nat.div_one]
      rw [dif_pos h, dif_pos hdiv]
      simp only [pure_eq_ok, Except.map, oneLayer, Nat.div_one]
    · have hdiv : ¬(minKeyHeight ≤ height / 1 ∧ height / 1 ≤ maxTreeHeight) := by
        rwa [Nat.div_one]
      rw [dif_neg h, dif_neg hdiv, Nat.div_one]
      rfl

variable (p : Params)

/-- A one-layer key makes as many signatures as the tree has leaves. -/
theorem Params.totalHeight_oneLayer : p.oneLayer.totalHeight = p.height := Nat.mul_one _

theorem Params.capacity_oneLayer : p.oneLayer.capacity = p.leaves := by
  rw [Hypertree.Params.capacity, totalHeight_oneLayer, leaves]

theorem Params.indexSize_oneLayer : p.oneLayer.indexSize = p.indexSize := by
  rw [Hypertree.Params.indexSize, totalHeight_oneLayer, indexSize]

/-- The public key of a one-layer hypertree accepts the signatures that the public key of the single
tree accepts, whatever they consist of. -/
theorem PublicKey.verify_oneLayer (key : PublicKey) (message : Bytes) (s : Signature) :
    key.oneLayer.verify message (s.oneLayer key.params) = key.verify message s := by
  rw [Hypertree.PublicKey.verify, PublicKey.verify]
  by_cases h : s.index < key.params.leaves ∧ s.reduced.path.length = key.params.height
  · have hfit : (s.oneLayer key.params).params = key.oneLayer.params ∧
        (s.oneLayer key.params).index < key.oneLayer.params.capacity ∧
        (s.oneLayer key.params).layers.length = key.oneLayer.params.layers ∧
        ∀ r ∈ (s.oneLayer key.params).layers, r.path.length = key.oneLayer.params.treeHeight :=
      ⟨rfl, key.params.capacity_oneLayer.symm ▸ h.1, rfl,
        fun r hr => List.mem_singleton.1 hr ▸ h.2⟩
    have hrecover : key.oneLayer.recoverRoot message (s.oneLayer key.params) =
        key.recoverRoot message s := by
      refine bind_congr fun block => ?_
      exact Hypertree.recoverLayers_singleton _ key.params.height_mem.2 h.1 block s.reduced
    rw [if_pos hfit, if_pos h, hrecover]
    rfl
  · rw [if_neg h, if_neg]
    rintro ⟨-, hindex, -, hpath⟩
    exact h ⟨key.params.capacity_oneLayer ▸ hindex, hpath s.reduced List.mem_cons_self⟩

variable {p} {a : PrivateKey} {b : Hypertree.PrivateKey}

/-- The stateless signer of a one-layer hypertree signs as that of the single tree does. -/
theorem statelessSign_oneLayer (ha : a.Coherent) (hindex : a.record.index < a.params.leaves)
    {message : Bytes} {s : Signature} (h : statelessSign a.params a.record message = .ok s) :
    (Hypertree.Origin.mk a.params.oneLayer a.record.seeds a.record.publicSeed).statelessSign
      a.record.index message = .ok (s.oneLayer a.params) := by
  obtain ⟨randomness, hrandomness, h⟩ := bind_eq_ok_iff.1 h
  obtain ⟨block, hblock, h⟩ := bind_eq_ok_iff.1 h
  obtain ⟨oneTime, hsign, h⟩ := bind_eq_ok_iff.1 h
  obtain ⟨⟨root, path⟩, hpath, h⟩ := bind_eq_ok_iff.1 h
  obtain rfl := Except.ok.inj h
  have htop : a.keyTree.tree.subtreeRoot 0 a.params.height = .ok _ :=
    subtreeRoot_eq_ok (KeyTree.total ha.wellSeeded) a.params.height_mem.2
  refine bind_eq_ok_iff.2 ⟨_, htop, ?_⟩
  refine bind_eq_ok_iff.2 ⟨randomness, hrandomness, ?_⟩
  refine bind_eq_ok_iff.2 ⟨block, ?_, ?_⟩
  · rw [ha.root_eq] at hblock
    exact hblock
  · have hsplit : Hypertree.splitIndex a.record.index a.params.oneLayer.treeHeight 0 =
        (0, a.record.index) := Hypertree.splitIndex_of_lt a.params.height_mem.2 hindex
    have hshare : (Hypertree.Origin.mk a.params.oneLayer a.record.seeds
        a.record.publicSeed).statelessShare 0 0 a.record.index block =
          .ok (root.value, ⟨oneTime, path⟩) :=
      bind_eq_ok_iff.2 ⟨oneTime, hsign, bind_eq_ok_iff.2 ⟨(root, path), hpath, rfl⟩⟩
    have hlayers : (Hypertree.Origin.mk a.params.oneLayer a.record.seeds
        a.record.publicSeed).statelessLayers a.record.index 0 1 block = .ok [⟨oneTime, path⟩] := by
      rw [Hypertree.Origin.statelessLayers, hsplit]
      exact bind_eq_ok_iff.2 ⟨_, hshare, rfl⟩
    exact bind_eq_ok_iff.2 ⟨_, hlayers, rfl⟩

/-- A single-tree key and a one-layer key with the same stored fields, each of which is coherent or
cannot sign. -/
structure Twins (p : Params) (a : PrivateKey) (b : Hypertree.PrivateKey) : Prop where
  live_left : laws.Live a
  live_right : Hypertree.laws.Live b
  params_left : a.params = p
  params_right : b.params = p.oneLayer
  record_eq : b.record = a.record

namespace Twins

variable (h : Twins p a b)
include h

/-- Twins run out of leaves at the same time. -/
theorem capacity_right : b.params.capacity = p.leaves := by
  rw [h.params_right, p.capacity_oneLayer]

/-- Twins have the same public key. -/
theorem publicKey_eq : b.publicKey = a.publicKey.oneLayer := by
  rw [Hypertree.PrivateKey.publicKey, PrivateKey.publicKey, PublicKey.oneLayer, h.params_right,
    h.record_eq, h.params_left]

/-- Twins are stored as the same bytes. -/
theorem encode_eq : b.encode = a.encode := by
  rw [Hypertree.PrivateKey.encode, PrivateKey.encode, h.capacity_right, h.params_right,
    p.indexSize_oneLayer, h.record_eq, h.params_left]

/-- Twins sign a message with the same outcome, and stay twins. -/
theorem sign (message : Bytes) :
    (splitOutcome (b.sign message)).1 =
        (splitOutcome (a.sign message)).1.map (Signature.oneLayer p) ∧
      Twins p (splitOutcome (a.sign message)).2 (splitOutcome (b.sign message)).2 := by
  have hcapacity := h.capacity_right
  obtain ⟨hleft, hright, rfl, hparams, hrecord⟩ := h
  rcases Nat.lt_or_ge a.record.index a.params.leaves with hindex | hexhausted
  · have hindex' : b.record.index < b.params.capacity := by rwa [hcapacity, hrecord]
    obtain ⟨s, after, hsign, hs, hafter, hkept, hnext⟩ :=
      laws.sign_coherent (hleft.coherent hindex) hindex message
    obtain ⟨s', after', hsign', hs', hafter', hkept', hnext'⟩ :=
      Hypertree.laws.sign_coherent (hright.coherent hindex') hindex' message
    have hsame : s' = s.oneLayer a.params := by
      have hone := statelessSign_oneLayer (hleft.coherent hindex) hindex hs
      rw [← hparams, ← hrecord] at hone
      exact Except.ok.inj (hs'.symm.trans hone)
    change a.sign message = _ at hsign
    change b.sign message = _ at hsign'
    change after'.record = { b.record with index := b.record.index + 1 } at hnext'
    rw [hrecord] at hnext'
    rw [hsign, hsign', hsame]
    exact ⟨rfl, .inl hafter, .inl hafter', hkept, hkept'.trans hparams, hnext'.trans hnext.symm⟩
  · have hexhausted' : b.params.capacity ≤ b.record.index := by rwa [hcapacity, hrecord]
    rw [PrivateKey.sign_of_exhausted hexhausted, Hypertree.PrivateKey.sign_of_exhausted hexhausted',
      hcapacity]
    exact ⟨rfl, hleft, hright, rfl, hparams, hrecord⟩

/-- Erased twins are twins. -/
theorem erase : Twins p a.erase b.erase := by
  refine ⟨.inr (laws.exhausted_erase a), .inr (Hypertree.laws.exhausted_erase b), h.params_left,
    h.params_right, ?_⟩
  rw [Hypertree.PrivateKey.erase, PrivateKey.erase, h.capacity_right, h.record_eq, h.params_left]

/-- Twins answer a request alike, and stay twins. -/
theorem ask (r : KeyKind.Request) :
    (Hypertree.keyKind.ask b r).1 = oneLayerAnswer p (keyKind.ask a r).1 ∧
      Twins p (keyKind.ask a r).2 (Hypertree.keyKind.ask b r).2 := by
  cases r with
  | sign message =>
    obtain ⟨houtcome, hafter⟩ := h.sign message
    exact ⟨congrArg KeyKind.Answer.signed houtcome, hafter⟩
  | remaining =>
    refine ⟨congrArg KeyKind.Answer.remaining ?_, h⟩
    change b.params.capacity - b.record.index = a.params.leaves - a.record.index
    rw [h.capacity_right, h.record_eq, h.params_left]
  | encode => exact ⟨congrArg KeyKind.Answer.encoded h.encode_eq, h⟩
  | publicKey => exact ⟨congrArg KeyKind.Answer.publicKey h.publicKey_eq, h⟩
  | erase => exact ⟨rfl, h.erase⟩

/-- Twins stay twins when they are stored and read again. -/
theorem reload : Twins p (keyKind.reload a) (Hypertree.keyKind.reload b) := by
  have hleft := h.live_left.reload
  have hright := h.live_right.reload
  exact ⟨hleft.live_left, hright.live_left, hleft.params_eq.trans h.params_left,
    hright.params_eq.trans h.params_right,
    hright.record_eq.trans (h.record_eq.trans hleft.record_eq.symm)⟩

/-- Twins answer alike for the rest of their lives. -/
theorem answers (events : List KeyKind.Event) :
    Hypertree.keyKind.answers b events =
      (keyKind.answers a events).map (oneLayerAnswer p) := by
  induction events generalizing a b with
  | nil => rfl
  | cons event events ih =>
    cases event with
    | request r =>
      obtain ⟨hanswer, hafter⟩ := h.ask r
      exact congrArg₂ List.cons hanswer (ih hafter)
    | reload => exact ih h.reload

end Twins

/-- The keys of both kinds that are made from the same seeds are twins. -/
theorem exists_twins {seeds : SecretSeeds} {publicSeed : Bytes}
    (hsecret : seeds.secretSeed.length = p.n) (hprf : seeds.prfKey.length = p.n)
    (hpublic : publicSeed.length = p.n) :
    ∃ a b, PrivateKey.ofSeeds p seeds publicSeed = .ok a ∧
      Hypertree.PrivateKey.ofSeeds p.oneLayer seeds publicSeed = .ok b ∧ Twins p a b := by
  have ho : (Hypertree.Origin.mk p.oneLayer seeds publicSeed).WellSeeded :=
    ⟨hsecret, hprf, hpublic⟩
  obtain ⟨a, hmade, -⟩ := PrivateKey.exists_ofSeeds hsecret hprf hpublic
  obtain ⟨b, hmade', hb, horigin, hrecord⟩ := Hypertree.PrivateKey.exists_ofSeeds ho
  obtain ⟨ha, hparams, hstored⟩ := PrivateKey.coherent_of_ofSeeds hmade
  refine ⟨a, b, hmade, hmade', .inl ha, .inl hb, hparams,
    congrArg Hypertree.Origin.params horigin, ?_⟩
  have hroot : a.record.root =
      (Hypertree.Origin.mk p.oneLayer seeds publicSeed).publicKey.root := by
    rw [ha.root_eq, PrivateKey.keyTree, hparams, hstored]
    rfl
  rw [hrecord, hstored, hroot]

/-- A hypertree of one layer is a single tree. Parameters and seeds that make a key of the one kind
make a key of the other kind, with the same encoded public key. Both keys answer alike for the rest
of their lives: they sign with the same index, randomness, one-time signature and path, are stored
as the same bytes, and are exhausted at the same request. Their public keys accept the same
signatures, whatever these consist of. -/
theorem one_layer_eq_single_tree (digest : Digest) (height w : Nat)
    (hheight : 2 ≤ height ∧ height ≤ 20) (hw : w = 4 ∨ w = 16) (seeds : SecretSeeds)
    (publicSeed : Bytes) (hsecret : seeds.secretSeed.length = digest.size)
    (hprf : seeds.prfKey.length = digest.size) (hpublic : publicSeed.length = digest.size) :
    ∃ p single layered, Params.new digest height w = .ok p ∧
      Hypertree.Params.new digest height 1 w = .ok p.oneLayer ∧
      PrivateKey.ofSeeds p seeds publicSeed = .ok single ∧
      Hypertree.PrivateKey.ofSeeds p.oneLayer seeds publicSeed = .ok layered ∧
      layered.publicKey.encode = single.publicKey.encode ∧
      (∀ events, Hypertree.keyKind.answers layered events =
        (keyKind.answers single events).map (oneLayerAnswer p)) ∧
      ∀ message s, layered.publicKey.verify message (s.oneLayer p) =
        single.publicKey.verify message s := by
  obtain ⟨width, hwidth⟩ : ∃ width, Winternitz.Width.ofBase w = .ok width := by
    rcases hw with rfl | rfl
    · exact ⟨.four, rfl⟩
    · exact ⟨.sixteen, rfl⟩
  have hnew : Params.new digest height w = .ok ⟨digest, width, height, hheight⟩ := by
    rw [Params.new, hwidth, ok_bind]
    exact dif_pos hheight
  have htotal : height ≤ Hypertree.maxTotalHeight := hheight.2.trans (by decide)
  obtain ⟨single, layered, hsingle, hlayered, htwins⟩ :=
    exists_twins (p := ⟨digest, width, height, hheight⟩) hsecret hprf hpublic
  refine ⟨_, single, layered, hnew, ?_, hsingle, hlayered, ?_, htwins.answers,
    fun message s => ?_⟩
  · rw [Params.new_oneLayer digest htotal, hnew]
    rfl
  · rw [htwins.publicKey_eq]
    rfl
  · have hparams : single.publicKey.params = _ := htwins.params_left
    rw [htwins.publicKey_eq, ← hparams]
    exact PublicKey.verify_oneLayer single.publicKey message s

/-- A single tree with four leaves and zero seeds is a hypertree of one layer. -/
theorem one_layer_eq_single_tree_smallestParams :
    ∃ p single layered, Params.new .sha256 2 4 = .ok p ∧
      Hypertree.Params.new .sha256 2 1 4 = .ok p.oneLayer ∧
      PrivateKey.ofSeeds p PrivateKey.zeroSeeds (List.replicate 32 0) = .ok single ∧
      Hypertree.PrivateKey.ofSeeds p.oneLayer PrivateKey.zeroSeeds (List.replicate 32 0) =
        .ok layered ∧
      layered.publicKey.encode = single.publicKey.encode ∧
      (∀ events, Hypertree.keyKind.answers layered events =
        (keyKind.answers single events).map (oneLayerAnswer p)) ∧
      ∀ message s, layered.publicKey.verify message (s.oneLayer p) =
        single.publicKey.verify message s :=
  one_layer_eq_single_tree .sha256 2 4 (by decide) (.inl rfl) PrivateKey.zeroSeeds
    (List.replicate 32 0) List.length_replicate List.length_replicate List.length_replicate

end SingleTree

end MerkleSignature
