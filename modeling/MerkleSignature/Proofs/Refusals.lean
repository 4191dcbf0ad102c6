import MerkleSignature.Hypertree.PrivateKey
import MerkleSignature.Proofs.Outcome
import MerkleSignature.SingleTree.PrivateKey

/-!
# What signing refuses for

That all one-time keys are used up is a fact about the index of a key, and the only place that looks
at it is the check with which signing begins. Everything that is computed behind this check can fail
in other ways, because bytes have the wrong length or nodes are missing, but never reports that the
key is exhausted. This is shown function by function, from the hash calls up to the two signers, for
arbitrary trees and traversals.
-/

namespace MerkleSignature

/-- A computation that fails, if it does, with an error of a given sort. -/
structure FailsWith {ε α : Type} (sort : ε → Prop) (x : Except ε α) : Prop where
  of_error : ∀ {e}, x = .error e → sort e

namespace FailsWith

variable {ε α β : Type} {sort : ε → Prop} {x y : Except ε α}

theorem ok (a : α) : FailsWith sort (.ok a) := ⟨nofun⟩

theorem error {e : ε} (h : sort e) : FailsWith sort (.error e : Except ε α) :=
  ⟨fun he => Except.error.inj he ▸ h⟩

/-- A chain of two steps fails as one of its steps does. -/
theorem bind {f : α → Except ε β} (hx : FailsWith sort x) (hf : ∀ a, FailsWith sort (f a)) :
    FailsWith sort (x >>= f) := by
  cases x with
  | error e => exact error (hx.of_error rfl)
  | ok a => exact hf a

theorem ite {c : Prop} [Decidable c] (hx : FailsWith sort x) (hy : FailsWith sort y) :
    FailsWith sort (if c then x else y) := by
  split
  · exact hx
  · exact hy

/-- A list is computed as its elements are. -/
theorem mapM {f : α → Except ε β} (hf : ∀ a, FailsWith sort (f a)) (xs : List α) :
    FailsWith sort (xs.mapM f) := by
  induction xs with
  | nil => exact ok _
  | cons a xs ih =>
    rw [List.mapM_cons]
    exact (hf a).bind fun _ => ih.bind fun _ => ok _

/-- A run fails as one of its steps does. -/
theorem foldlM {f : β → α → Except ε β} (hf : ∀ b a, FailsWith sort (f b a)) (xs : List α)
    (b : β) : FailsWith sort (xs.foldlM f b) := by
  induction xs generalizing b with
  | nil => exact ok _
  | cons a xs ih =>
    rw [List.foldlM_cons]
    exact (hf b a).bind ih

end FailsWith

/-- The error is not that a key has no signature left. -/
def Error.NotExhaustion (e : Error) : Prop := ∀ capacity, e ≠ .keyExhausted capacity

/-- The computation never reports that a key is exhausted. -/
abbrev NeverExhausted {α : Type} (x : Except Error α) : Prop := FailsWith Error.NotExhaustion x

/-- The same of a computation that returns a state with its error. -/
abbrev NeverExhaustedStep {σ α : Type} (x : Except (Error × σ) α) : Prop :=
  FailsWith (fun failure => failure.1.NotExhaustion) x

theorem neverExhausted_checkLength (what : String) (data : Bytes) (expected : Nat) :
    NeverExhausted (checkLength what data expected) := .ite (.ok _) (.error nofun)

namespace Digest

variable (d : Digest)

theorem neverExhausted_prf (key input : Bytes) : NeverExhausted (d.prf key input) :=
  (neverExhausted_checkLength ..).bind fun _ =>
    (neverExhausted_checkLength ..).bind fun _ => .ok _

theorem neverExhausted_chainHash (key input : Bytes) : NeverExhausted (d.chainHash key input) :=
  (neverExhausted_checkLength ..).bind fun _ =>
    (neverExhausted_checkLength ..).bind fun _ => .ok _

theorem neverExhausted_nodeHash (key input : Bytes) : NeverExhausted (d.nodeHash key input) :=
  (neverExhausted_checkLength ..).bind fun _ =>
    (neverExhausted_checkLength ..).bind fun _ => .ok _

theorem neverExhausted_messageDigest (randomness root : Bytes) (index : Nat) (message : Bytes) :
    NeverExhausted (d.messageDigest randomness root index message) := by
  refine (neverExhausted_checkLength ..).bind fun _ => ?_
  refine (neverExhausted_checkLength ..).bind fun _ => ?_
  exact (neverExhausted_checkLength ..).bind fun _ => .ok _

theorem neverExhausted_joinNodes (left right publicSeed : Bytes) (address : Address) :
    NeverExhausted (d.joinNodes left right publicSeed address) := by
  refine (neverExhausted_checkLength ..).bind fun _ => ?_
  refine (neverExhausted_checkLength ..).bind fun _ => ?_
  -- The key and the two masks.
  refine (d.neverExhausted_prf ..).bind fun _ => ?_
  refine (d.neverExhausted_prf ..).bind fun _ => ?_
  refine (d.neverExhausted_prf ..).bind fun _ => ?_
  exact d.neverExhausted_nodeHash ..

end Digest

namespace Winternitz

theorem neverExhausted_messageDigits (p : Params) (block : Bytes) :
    NeverExhausted (p.messageDigits block) :=
  (neverExhausted_checkLength ..).bind fun _ => .ok _

namespace OneTime

variable (s : OneTime) (position : TreePosition) (leaf : Nat)

theorem neverExhausted_next (chain step : Nat) (element : Bytes) :
    NeverExhausted (s.next position leaf chain step element) := by
  refine (s.digest.neverExhausted_prf ..).bind fun _ => ?_
  refine (s.digest.neverExhausted_prf ..).bind fun _ => ?_
  exact s.digest.neverExhausted_chainHash ..

theorem neverExhausted_walk (chain start steps : Nat) (element : Bytes) :
    NeverExhausted (s.walk position leaf chain start steps element) := by
  induction steps generalizing start element with
  | zero => exact .ok _
  | succ steps ih => exact (s.neverExhausted_next ..).bind fun _ => ih ..

theorem neverExhausted_chain (element : Bytes) (start steps chain : Nat) :
    NeverExhausted (s.chain element start steps position leaf chain) :=
  .ite (.error nofun) ((neverExhausted_checkLength ..).bind fun _ => s.neverExhausted_walk ..)

theorem neverExhausted_secretElements (secretSeed : Bytes) :
    NeverExhausted (s.secretElements secretSeed position leaf) :=
  (s.digest.neverExhausted_prf ..).bind fun _ => .mapM (fun _ => s.digest.neverExhausted_prf ..) _

theorem neverExhausted_publicKey (secretSeed : Bytes) :
    NeverExhausted (s.publicKey secretSeed position leaf) :=
  (s.neverExhausted_secretElements ..).bind fun _ =>
    (FailsWith.mapM (fun _ => s.neverExhausted_chain ..) _).bind fun _ => .ok _

theorem neverExhausted_sign (block secretSeed : Bytes) :
    NeverExhausted (s.sign block secretSeed position leaf) := by
  refine (neverExhausted_messageDigits ..).bind fun _ => ?_
  refine (s.neverExhausted_secretElements ..).bind fun _ => ?_
  exact (FailsWith.mapM (fun _ => s.neverExhausted_chain ..) _).bind fun _ => .ok _

end OneTime

end Winternitz

namespace LTree

theorem neverExhausted_joinPairs {join : Nat → Bytes → Bytes → Except Error Bytes}
    (hjoin : ∀ index left right, NeverExhausted (join index left right)) (count index : Nat)
    (buffer : Array Bytes) : NeverExhausted (joinPairs join count index buffer) := by
  induction count generalizing index buffer with
  | zero => exact .ok _
  | succ count ih => exact (hjoin ..).bind fun _ => ih ..

theorem neverExhausted_compress {join : Join}
    (hjoin : ∀ height index left right, NeverExhausted (join height index left right))
    (height length : Nat) (buffer : Array Bytes) :
    NeverExhausted (compress join height length buffer) := by
  fun_induction compress join height length buffer with
  | case1 => exact .ok _
  | case2 height length buffer _ ih =>
    have hround : NeverExhausted (round (join height) length buffer) :=
      (neverExhausted_joinPairs (hjoin height) ..).bind fun _ => .ok _
    exact hround.bind ih

theorem neverExhausted_root (d : Digest) (publicKey publicSeed : Bytes) (position : TreePosition)
    (leaf : Nat) : NeverExhausted (root d publicKey publicSeed position leaf) :=
  .ite (.error nofun) ((neverExhausted_compress
    (fun _ _ _ _ => d.neverExhausted_joinNodes ..) ..).bind fun _ => .ok _)

end LTree

/-- A tree whose leaves and joins never report that a key is exhausted. -/
structure MerkleTree.NeverExhausts (t : MerkleTree) : Prop where
  leaf : ∀ index, NeverExhausted (t.leaf index)
  join : ∀ height index left right, NeverExhausted (t.join height index left right)

namespace KeyTree

theorem neverExhausts (k : KeyTree) : k.tree.NeverExhausts where
  leaf _ := (k.oneTime.neverExhausted_publicKey ..).bind fun _ => LTree.neverExhausted_root ..
  join _ _ _ _ := k.digest.neverExhausted_joinNodes ..

theorem neverExhausted_signLeaf (k : KeyTree) (block : Bytes) (leaf : Nat) :
    NeverExhausted (k.signLeaf block leaf) := k.oneTime.neverExhausted_sign ..

end KeyTree

theorem neverExhausted_checkTreeHeight (height : Nat) : NeverExhausted (checkTreeHeight height) :=
  .ite (.ok _) (.error nofun)

/-- An unfinished path is no exhausted key. -/
theorem neverExhausted_completePath (level : Nat) (path : List (Option Bytes)) :
    NeverExhausted (completePath level path) := by
  induction path generalizing level with
  | nil => exact .ok _
  | cons node path ih =>
    cases node with
    | none => exact .error nofun
    | some node => exact (ih (level + 1)).bind fun _ => .ok _

namespace MerkleTree.NeverExhausts

variable {t : MerkleTree} (ht : t.NeverExhausts)
include ht

theorem combine (left right : Node) (parent : Nat) :
    NeverExhausted (t.combine left right parent) :=
  .ite ((ht.join ..).bind fun _ => .ok _) (.error nofun)

section Pass

variable {σ : Type} (visit : σ → Node → Nat → σ)

theorem climb (index : Nat) (stack : NodeStack) (node : Node) (seen : σ) :
    NeverExhausted (t.climb visit index stack node seen) := by
  induction stack generalizing node seen with
  | nil => exact .ok _
  | cons top rest ih => exact .ite ((ht.combine ..).bind fun _ => ih ..) (.ok _)

theorem passBatches (batch rounds start count : Nat) (pass : NodeStack × σ) :
    NeverExhausted (t.passBatches visit batch rounds start count pass) := by
  induction rounds generalizing start count pass with
  | zero => exact .ok _
  | succ rounds ih =>
    exact (FailsWith.mapM ht.leaf _).bind fun _ =>
      (FailsWith.foldlM (fun _ _ => ht.climb visit ..) _ _).bind fun _ => ih ..

theorem reduce (start target : Nat) (seen : σ) :
    NeverExhausted (t.reduce visit start target seen) := by
  have hfinish (stack : NodeStack) : NeverExhausted (finish target stack) := by
    cases stack with
    | nil => exact .error nofun
    | cons root rest => exact .ite (.ok _) (.error nofun)
  refine (neverExhausted_checkTreeHeight target).bind fun _ => .ite ?_ (.error nofun)
  exact (ht.passBatches visit ..).bind fun _ => (hfinish _).bind fun _ => .ok _

end Pass

theorem rootAndPath (leaf : Nat) : NeverExhausted (t.rootAndPath leaf) := by
  refine (neverExhausted_checkTreeHeight t.height).bind fun _ => ?_
  refine (ht.reduce ..).bind fun _ => ?_
  exact (neverExhausted_completePath ..).bind fun _ => .ok _

/-- A failed step of a builder is no exhausted key. -/
theorem climbBuilder (index ownNodes : Nat) (stack : NodeStack) (node : Node) :
    NeverExhaustedStep (SubtreeBuilder.climb t index ownNodes stack node) := by
  induction ownNodes generalizing stack node with
  | zero => exact .ok _
  | succ ownNodes ih =>
    cases stack with
    | nil => exact .ok _
    | cons top rest =>
      refine .ite ?_ (.ok _)
      cases hcombine : t.combine top node (index >>> (node.height + 1)) with
      | error e => exact .error ((ht.combine ..).of_error hcombine)
      | ok parent => exact ih ..

theorem update (b : SubtreeBuilder) (stack : NodeStack) :
    NeverExhaustedStep (b.update t stack) := by
  refine .ite ?_ (.error nofun)
  cases hleaf : t.leafNode b.next with
  | error e =>
    have hnode : NeverExhausted (t.leafNode b.next) := (ht.leaf _).bind fun _ => .ok _
    exact .error (hnode.of_error hleaf)
  | ok leaf =>
    dsimp only
    cases hclimb : SubtreeBuilder.climb t b.next b.ownNodes stack leaf with
    | error failure => exact .error ((ht.climbBuilder ..).of_error hclimb)
    | ok result => exact .ite (.ok _) (.ok _)

end MerkleTree.NeverExhausts

namespace Traversal

/-- A missing root is no exhausted key. -/
theorem neverExhausted_takeRoots (count level : Nat) (s : Traversal) :
    NeverExhaustedStep (takeRoots count level s) := by
  induction count generalizing level s with
  | zero => exact .ok _
  | succ count ih =>
    rw [takeRoots]
    cases s.builders[level]?.bind SubtreeBuilder.root with
    | none => exact .error nofun
    | some node => exact ih ..

variable {t : MerkleTree} (ht : t.NeverExhausts)
include ht

theorem neverExhausted_round (leaf : Nat) (s : Traversal) :
    NeverExhaustedStep (s.round t leaf) := by
  rw [round]
  cases firstLeftHeight s.height leaf with
  | zero =>
    dsimp only
    cases hleaf : t.leaf leaf with
    | error e => exact .error ((ht.leaf leaf).of_error hleaf)
    | ok value => exact .ok _
  | succ below =>
    dsimp only
    cases s.kept.getD below none with
    | none => exact .error nofun
    | some right =>
      dsimp only
      cases hcombine : t.combine ⟨below, s.path.getD below []⟩ ⟨below, right⟩
          (leaf >>> (below + 1)) with
      | error e => exact .error ((ht.combine ..).of_error hcombine)
      | ok parent =>
        dsimp only
        split
        · rename_i failure htake
          exact .error ((neverExhausted_takeRoots ..).of_error htake)
        · exact .ok _

theorem neverExhausted_spend (budget : Nat) (s : Traversal) :
    NeverExhaustedStep (s.spend t budget) := by
  induction budget generalizing s with
  | zero => exact .ok _
  | succ budget ih =>
    rw [spend]
    cases s.lowestBuilder? with
    | none => exact .ok _
    | some level =>
      dsimp only
      cases s.builders[level]? with
      | none => exact .ok _
      | some b =>
        dsimp only
        cases hupdate : b.update t s.stack with
        | error failure => exact .error ((ht.update ..).of_error hupdate)
        | ok result => exact ih _

theorem neverExhausted_advance (leaf : Nat) (s : Traversal) :
    NeverExhaustedStep (s.advance t leaf) := by
  refine .ite ?_ (.ok _)
  cases hround : s.round t leaf with
  | error failure => exact .error ((neverExhausted_round ht ..).of_error hround)
  | ok s => exact neverExhausted_spend ht ..

theorem neverExhausted_restore (index : Nat) : NeverExhausted (restore t index) := by
  have hfirst : NeverExhausted (atFirstLeaf t) :=
    (ht.reduce ..).bind fun _ => (neverExhausted_completePath ..).bind fun _ => .ok _
  refine hfirst.bind fun ⟨s, root⟩ => ?_
  have hreplay : NeverExhaustedStep (s.replay t index) :=
    .foldlM (fun s leaf => neverExhausted_advance ht leaf s) _ _
  dsimp only
  cases hmoved : s.replay t index with
  | error failure => exact .error (hreplay.of_error hmoved)
  | ok s => exact .ok _

end Traversal

/-- Behind the check of the index, a single-tree key never reports that it is exhausted. -/
theorem SingleTree.PrivateKey.neverExhausted_signParts (key : PrivateKey) (index : Nat)
    (message : Bytes) : NeverExhausted (key.signParts index message) := by
  refine (key.params.digest.neverExhausted_prf ..).bind fun _ => ?_
  refine (key.params.digest.neverExhausted_messageDigest ..).bind fun _ => ?_
  exact (key.keyTree.neverExhausted_signLeaf ..).bind fun _ => .ok _

namespace Hypertree.PrivateKey

variable (key : PrivateKey)

theorem neverExhausted_hashMessage (index : Nat) (message : Bytes) :
    NeverExhausted (key.hashMessage index message) :=
  (key.params.digest.neverExhausted_prf ..).bind fun _ =>
    (key.params.digest.neverExhausted_messageDigest ..).bind fun _ => .ok _

theorem neverExhausted_bottomFor (tree leaf : Nat) : NeverExhausted (key.bottomFor tree leaf) := by
  rw [bottomFor]
  cases key.bottom.filter (·.tree = tree) with
  | some bottom => exact .ok _
  | none =>
    exact (Traversal.neverExhausted_restore (key.keyTree 0 tree).neverExhausts leaf).bind
      fun _ => .ok _

theorem neverExhausted_signBottom (index : Nat) (block : Bytes) :
    NeverExhaustedStep (key.signBottom index block) := by
  rw [signBottom]
  obtain ⟨tree, leaf⟩ := splitIndex index key.params.treeHeight 0
  dsimp only
  cases hbottom : key.bottomFor tree leaf with
  | error e => exact .error ((key.neverExhausted_bottomFor ..).of_error hbottom)
  | ok bottom =>
    dsimp only
    cases hsign : (key.keyTree 0 tree).signLeaf block leaf with
    | error e => exact .error ((KeyTree.neverExhausted_signLeaf ..).of_error hsign)
    | ok oneTime =>
      dsimp only
      cases hmove : bottom.traversal.advance (key.keyTree 0 tree).tree leaf with
      | error failure =>
        exact .error (Traversal.neverExhausted_advance (key.keyTree 0 tree).neverExhausts leaf
          bottom.traversal |>.of_error hmove)
      | ok traversal => exact .ok _

theorem neverExhausted_upperFor (last : Option UpperSignature) (layer tree leaf : Nat)
    (below : Bytes) : NeverExhausted (key.upperFor last layer tree leaf below) := by
  rw [upperFor]
  cases last.filter fun s => s.tree = tree ∧ s.leaf = leaf with
  | some s => exact .ok _
  | none =>
    exact ((key.keyTree layer tree).neverExhausts.rootAndPath leaf).bind fun _ =>
      ((key.keyTree layer tree).neverExhausted_signLeaf below leaf).bind fun _ => .ok _

theorem neverExhausted_signUpper (index layer : Nat) (below : Bytes)
    (entries : List (Option UpperSignature)) :
    NeverExhaustedStep (key.signUpper index layer below entries) := by
  induction entries generalizing layer below with
  | nil => exact .ok _
  | cons last rest ih =>
    rw [signUpper]
    obtain ⟨tree, leaf⟩ := splitIndex index key.params.treeHeight layer
    dsimp only
    cases hupper : key.upperFor last layer tree leaf below with
    | error e => exact .error ((key.neverExhausted_upperFor ..).of_error hupper)
    | ok s =>
      dsimp only
      cases hrest : key.signUpper index (layer + 1) s.root rest with
      | error failure =>
        have hsort := (ih (layer + 1) s.root).of_error hrest
        exact .error hsort
      | ok result => exact .ok _

end Hypertree.PrivateKey

end MerkleSignature
