import MerkleSignature.Proofs.Hypertree.Completeness
import MerkleSignature.Proofs.OneTimeUse

/-!
# The life of a hypertree key

Hypertree keys fulfil the laws of a kind of key: a coherent key signs as the stateless signer does,
and what is lost when it is stored and read again does not show.
-/

namespace MerkleSignature.Hypertree

open PrivateKey

/-- The one-time signatures in the shares from `layer` on, the first of which signs a given
block. -/
def PublicKey.layerUses (s : Winternitz.OneTime) (height index : Nat) :
    (layer : Nat) → (block : Bytes) → List ReducedSignature → Except Error (List OneTimeUse)
  | _, _, [] => .ok []
  | layer, block, share :: rest => do
    let (tree, leaf) := splitIndex index height layer
    let root ← share.recoverRoot s block (positionOf layer tree) leaf
    let above ← layerUses s height index (layer + 1) root rest
    return ⟨⟨layer, tree, leaf⟩, block, share.oneTime⟩ :: above

/-- The one-time signatures in a signature of a message: that of the lowest layer signs the block of
the message, and every other one the root that the layers below commit to. -/
def PublicKey.uses (key : PublicKey) (message : Bytes) (s : Signature) :
    Except Error (List OneTimeUse) := do
  let digest := key.params.digest
  let block ← digest.messageDigest s.randomness key.root s.index message
  layerUses ⟨digest, key.params.width, key.publicSeed⟩ key.params.treeHeight s.index 0 block
    s.layers

/-- Every share has its one-time signature in the list. -/
theorem PublicKey.signature_of_layerUses {s : Winternitz.OneTime} {height index layer : Nat}
    {block : Bytes} {shares : List ReducedSignature} {uses : List OneTimeUse}
    (h : layerUses s height index layer block shares = .ok uses) :
    uses.map OneTimeUse.signature = shares.map ReducedSignature.oneTime := by
  induction shares generalizing layer block uses with
  | nil =>
    obtain rfl := Except.ok.inj h
    rfl
  | cons share shares ih =>
    obtain ⟨root, -, h⟩ := bind_eq_ok_iff.1 h
    obtain ⟨above, habove, h⟩ := bind_eq_ok_iff.1 h
    obtain rfl := Except.ok.inj h
    rw [List.map_cons, List.map_cons, ih habove]

/-- Hypertree keys as a kind of key. -/
def keyKind : KeyKind where
  Params := Params
  Key := PrivateKey
  Signature := Signature
  PublicKey := PublicKey
  digest := Params.digest
  capacity := Params.capacity
  treeOf := treeOf
  params := PrivateKey.params
  record := PrivateKey.record
  same a b := a == b
  ofSeeds := ofSeeds
  generate := generate
  sign := PrivateKey.sign
  remaining := PrivateKey.remaining
  encode := PrivateKey.encode
  decode := PrivateKey.decode
  publicKey := PrivateKey.publicKey
  erase := PrivateKey.erase
  oneTimeSignatures s := s.layers.map ReducedSignature.oneTime
  uses := PublicKey.uses

variable {key : PrivateKey}

/-- Keys compare equal when their parameters and stored fields are the same. -/
theorem beq_iff {a b : PrivateKey} :
    (a == b) = true ↔ a.params = b.params ∧ a.record = b.record := by
  rw [show (a == b) = (a.params == b.params && a.record == b.record) from rfl, Bool.and_eq_true,
    beq_iff_eq, beq_iff_eq]

/-- What is stored depends on the parameters and the stored fields alone. -/
theorem encode_congr {a b : PrivateKey} (hparams : a.params = b.params)
    (hrecord : a.record = b.record) : a.encode = b.encode := by
  rw [encode, encode, hparams, hrecord]

/-- So does the public key, which does not depend on the index either. -/
theorem publicKey_congr {a b : PrivateKey} (hparams : a.params = b.params)
    (hroot : a.record.root = b.record.root) (hpublic : a.record.publicSeed = b.record.publicSeed) :
    a.publicKey = b.publicKey := by
  rw [publicKey, publicKey, hparams, hroot, hpublic]

/-- A random source makes a key from the seeds that it draws. -/
theorem generate_eq_ofSeeds {σ : Type} (p : Params) (source : RandomSource σ) (state : σ) :
    (generate p source state).1 = ofSeeds p (source.drawSeeds p.n state).1.1
      (source.drawSeeds p.n state).1.2 := by
  rw [ofSeeds, checkSeeds_drawSeeds]
  rfl

/-- A key made from its seeds is coherent. -/
theorem coherent_of_ofSeeds {p : Params} {seeds : SecretSeeds} {publicSeed : Bytes}
    (h : ofSeeds p seeds publicSeed = .ok key) : key.Coherent ∧ key.params = p := by
  have hreachable : Reachable ⟨p, seeds, publicSeed⟩ key := .made h
  obtain ⟨hcoherent, horigin⟩ := hreachable.coherent
  exact ⟨hcoherent, congrArg Origin.params horigin⟩

/-- The parameters of a key are those of its origin. -/
theorem params_eq_of_origin_eq {a b : PrivateKey} (h : a.origin = b.origin) :
    a.params = b.params := congrArg Origin.params h

/-- Keys of one origin store the same root. -/
theorem record_eq_of_origin_eq {a b : PrivateKey} (ha : a.Coherent) (hb : b.Coherent)
    (h : a.origin = b.origin) : a.record = { b.record with index := a.record.index } := by
  have hroot : a.record.root = b.record.root := by
    rw [ha.root_eq, hb.root_eq, h]
  have hseeds : a.record.seeds = b.record.seeds := congrArg Origin.seeds h
  have hpublic : a.record.publicSeed = b.record.publicSeed := congrArg Origin.publicSeed h
  dsimp only
  rw [← hroot, ← hseeds, ← hpublic]

/-- Hypertree keys behave as their stored fields say. -/
def laws : keyKind.Laws where
  Coherent := PrivateKey.Coherent
  signature p r message := (Origin.mk p r.seeds r.publicSeed).statelessSign r.index message
  same_iff := beq_iff
  generate_eq p source state := ⟨_, _, generate_eq_ofSeeds p source state⟩
  coherent_of_ofSeeds := coherent_of_ofSeeds
  remaining_eq _ := rfl
  publicKey_congr := publicKey_congr
  encode_congr := encode_congr
  encode_exhausted hexhausted := ⟨_, if_neg (Nat.not_lt.2 hexhausted)⟩
  erase_eq _ := ⟨rfl, rfl⟩
  sign_exhausted hexhausted message := sign_of_exhausted hexhausted message
  sign_coherent hkey hindex message := by
    obtain ⟨signature, after, hsign, hstateless, hafter, horigin, hnext⟩ :=
      PrivateKey.Coherent.sign hkey hindex message
    have hrecord := record_eq_of_origin_eq hafter hkey horigin
    rw [hnext] at hrecord
    exact ⟨signature, after, hsign, hstateless, hafter, params_eq_of_origin_eq horigin, hrecord⟩
  reload_coherent hkey hindex := by
    obtain ⟨bytes, after, hstored, hread, hafter, horigin, hrecord⟩ := exists_reload hkey hindex
    exact ⟨bytes, after, hstored, hread, hafter, params_eq_of_origin_eq horigin, hrecord⟩

namespace Origin

variable {o : Origin}

/-- The one-time signatures of `count` layers from `layer` on, the first of which signs `block`. -/
def uses (o : Origin) (index : Nat) : (layer count : Nat) → (block : Bytes) → List OneTimeUse
  | _, 0, _ => []
  | layer, count + 1, block =>
    let (tree, leaf) := splitIndex index o.params.treeHeight layer
    ⟨⟨layer, tree, leaf⟩, block, (o.share layer tree leaf block).oneTime⟩ ::
      o.uses index (layer + 1) count (o.root layer tree)

/-- The number of the tree on the layer below that a one-time key signs the root of, and on the
lowest layer the index of the signature that it makes. -/
def numberBelow (p : Params) (k : OneTimeKey) : Nat := k.tree * 2 ^ p.treeHeight + k.leaf

/-- What the one-time signatures from `layer` on are, if the first of them signs `block`. -/
structure IsUse (o : Origin) (index layer : Nat) (block : Bytes) (u : OneTimeUse) : Prop where
  layer_le : layer ≤ u.key.layer
  length_block : u.block.length = o.params.n
  sign_eq : (o.tree u.key.layer u.key.tree).signLeaf u.block u.key.leaf = .ok u.signature
  number_eq : numberBelow o.params u.key = index >>> (u.key.layer * o.params.treeHeight)
  first_block : u.key.layer = layer → u.block = block
  later_block : u.key.layer ≠ layer →
    u.block = o.root (u.key.layer - 1) (numberBelow o.params u.key)

/-- The keys on the layers from `layer` on are different keys of layers not below `layer`. -/
theorem nodup_uses (index layer count : Nat) (block : Bytes) :
    ((o.uses index layer count block).map OneTimeUse.key).Nodup ∧
      ∀ u ∈ o.uses index layer count block, layer ≤ u.key.layer := by
  induction count generalizing layer block with
  | zero => exact ⟨.nil, fun _ h => absurd h List.not_mem_nil⟩
  | succ count ih =>
    obtain ⟨hnodup, hlayer⟩ := ih (layer + 1)
      (o.root layer (splitIndex index o.params.treeHeight layer).1)
    rw [uses]
    refine ⟨List.nodup_cons.2 ⟨fun hmem => ?_, hnodup⟩, fun u hu => ?_⟩
    · obtain ⟨u, hu, hsame⟩ := List.mem_map.1 hmem
      have hle := hlayer u hu
      rw [hsame] at hle
      exact absurd hle (Nat.not_succ_le_self layer)
    · rcases List.mem_cons.1 hu with rfl | hu
      · exact Nat.le_refl _
      · exact Nat.le_of_succ_le (hlayer u hu)

variable (ho : o.WellSeeded)
include ho

/-- A verifier reads the one-time signatures of the layers off their shares. -/
theorem layerUses_shares (index layer count : Nat) {block : Bytes}
    (hblock : block.length = o.params.n) :
    PublicKey.layerUses ⟨o.params.digest, o.params.width, o.publicSeed⟩ o.params.treeHeight index
        layer block (o.shares index layer count block) = .ok (o.uses index layer count block) := by
  induction count generalizing layer block with
  | zero => rfl
  | succ count ih =>
    rw [shares, PublicKey.layerUses]
    dsimp only
    rw [(ho.share_spec hblock layer _ (splitIndex_leaf_lt ..)).2, ok_bind,
      ih (layer + 1) (ho.length_root ..)]
    rfl

/-- Every one-time signature on the layers is made by the one-time key of its place, and above the
first layer it signs the root of the tree below. -/
theorem isUse_of_mem_uses (index layer count : Nat) {block : Bytes}
    (hblock : block.length = o.params.n) {u : OneTimeUse}
    (hu : u ∈ o.uses index layer count block) : o.IsUse index layer block u := by
  induction count generalizing layer block with
  | zero => exact absurd hu List.not_mem_nil
  | succ count ih =>
    rw [uses] at hu
    rcases List.mem_cons.1 hu with rfl | hu
    · exact ⟨Nat.le_refl _, hblock, (ho.share_spec hblock layer _ (splitIndex_leaf_lt ..)).1,
        splitIndex_join o.params.treeHeight_le_leafBits index layer, fun _ => rfl,
        fun h => absurd rfl h⟩
    · have hrest := ih (layer + 1) (ho.length_root ..) hu
      have hle := hrest.layer_le
      refine ⟨Nat.le_of_succ_le hle, hrest.length_block, hrest.sign_eq, hrest.number_eq,
        fun h => by omega, fun _ => ?_⟩
      by_cases hnext : u.key.layer = layer + 1
      · -- The tree that is selected on a layer is numbered by what the layer above selects.
        rw [hrest.first_block hnext, hrest.number_eq, hnext, Nat.add_sub_cancel]
      · exact hrest.later_block hnext

end Origin

/-- On the lowest layer a one-time key signs for one index, above it it signs the root of one
tree. -/
def useLaws : laws.UseLaws where
  signatures_eq h := by
    obtain ⟨block, -, huses⟩ := bind_eq_ok_iff.1 h
    exact PublicKey.signature_of_layerUses huses
  index := Origin.numberBelow
  block p seeds publicSeed k :=
    (Origin.mk p seeds publicSeed).root (k.layer - 1) (Origin.numberBelow p k)
  exists_uses {key} hkey _ message s h := by
    have ho : key.origin.WellSeeded := hkey.wellSeeded
    obtain ⟨randomness, block, hrandomness, hblock, hlength⟩ :=
      ho.exists_block key.record.index message
    have hs := ho.statelessSign_eq_ok hrandomness hblock hlength
    obtain rfl := Except.ok.inj (hs.symm.trans h)
    refine ⟨key.origin.uses key.record.index 0 key.params.layers block, ?_,
      (Origin.nodup_uses ..).1, fun u hu => ?_⟩
    · change key.publicKey.uses message _ = _
      rw [hkey.publicKey_eq]
      exact bind_eq_ok_iff.2 ⟨block, hblock, Origin.layerUses_shares ho _ 0 _ hlength⟩
    · have huse := Origin.isUse_of_mem_uses ho key.record.index 0 key.params.layers hlength hu
      refine ⟨huse.length_block, huse.sign_eq, fun hlayer => ?_, huse.later_block⟩
      have hnumber := huse.number_eq
      rw [hlayer, Nat.zero_mul, Nat.shiftRight_zero] at hnumber
      exact hnumber

end MerkleSignature.Hypertree
