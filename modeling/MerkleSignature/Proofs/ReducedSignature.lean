import MerkleSignature.Proofs.LTree.Binding
import MerkleSignature.Proofs.Tree.Binding
import MerkleSignature.Proofs.Winternitz.Extraction
import MerkleSignature.ReducedSignature

/-!
# What two shares of one leaf with one root have in common

Recovering the root from a share goes from the chains through the L-tree to the path. Two shares of
one leaf that lead to the same root are compared in the opposite order: the paths and the leaves are
the same, then the public keys are, then the elements that the chains reveal. Where one of these
steps fails, two calls at one place collide, or the second share reveals an earlier element.
-/

namespace MerkleSignature.ReducedSignature

open Winternitz

variable {s : OneTime} {position : TreePosition} {leaf : Nat}

/-- The root that the signature of a block by a leaf commits to, with a record. -/
def record (r : ReducedSignature) (s : OneTime) (block : Bytes) (position : TreePosition)
    (leaf : Nat) : Recorded HashCall Bytes := do
  let publicKey ← s.recordRecover r.oneTime block position leaf
  let value ←
    LTree.recordRoot s.digest (s.digest.recordLTreeJoin s.publicSeed position leaf) publicKey
  recordPath (s.digest.recordHashTreeJoin s.publicSeed position) leaf 0 value r.path

/-- The recorded recovery of the root is its recovery. -/
@[simp] theorem value_record (r : ReducedSignature) (block : Bytes) :
    (r.record s block position leaf).value = r.recoverRoot s block position leaf := by
  simp only [record, recoverRoot, Recorded.value_bind, OneTime.value_recordRecover,
    LTree.value_recordRoot (Digest.value_recordLTreeJoin leaf), value_recordPath,
    Digest.value_recordHashTreeJoin]

/-- Two shares of one leaf with the same root sign the same block with the same signature and path,
or two of their calls collide, or the second one-time signature precedes the first. -/
theorem eq_or_collision_or_precedes {r r' : ReducedSignature} {block block' root : Bytes}
    {calls calls' : List HashCall} (hlength : r.path.length = r'.path.length)
    (h : (r.record s block position leaf).run = .ok (root, calls))
    (h' : (r'.record s block' position leaf).run = .ok (root, calls')) :
    (block = block' ∧ r = r') ∨ Collision s.digest calls calls' ∨
      s.Precedes position leaf r.oneTime block r'.oneTime block' := by
  obtain ⟨publicKey, _, _, hrecover, hrest, rfl⟩ := Recorded.run_bind_eq_ok_iff.1 h
  obtain ⟨value, _, _, hvalue, hpath, rfl⟩ := Recorded.run_bind_eq_ok_iff.1 hrest
  obtain ⟨publicKey', _, _, hrecover', hrest', rfl⟩ := Recorded.run_bind_eq_ok_iff.1 h'
  obtain ⟨value', _, _, hvalue', hpath', rfl⟩ := Recorded.run_bind_eq_ok_iff.1 hrest'
  rcases path_eq_or_collision Digest.binding_recordHashTreeJoin hlength hpath hpath' with
    ⟨rfl, hpaths⟩ | hcollision
  · have hkeys : publicKey.length = publicKey'.length :=
      (OneTime.length_of_recordRecover hrecover).trans
        (OneTime.length_of_recordRecover hrecover').symm
    rcases LTree.publicKey_eq_or_collision hkeys hvalue hvalue' with rfl | hcollision
    · rcases OneTime.signature_eq_or_collision_or_precedes hrecover hrecover' with
        ⟨hblock, hsignature⟩ | hcollision | hprecedes
      · obtain ⟨oneTime, path⟩ := r
        obtain ⟨oneTime', path'⟩ := r'
        obtain rfl : oneTime = oneTime' := hsignature
        obtain rfl : path = path' := hpaths
        exact .inl ⟨hblock, rfl⟩
      · exact .inr (.inl hcollision.append_left)
      · exact .inr (.inr hprecedes)
    · exact .inr (.inl hcollision.append_left.append_right)
  · exact .inr (.inl hcollision.append_right.append_right)

end MerkleSignature.ReducedSignature
