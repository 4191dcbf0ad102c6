import MerkleSignature.LTree
import MerkleSignature.Proofs.Digest.Keyed

/-!
# L-trees of well-formed public keys

The buffer of an L-tree never changes its size, and what is written into it are joined elements or
elements moved up. So as long as the join function turns elements of `n` bytes into elements of `n`
bytes, every round finds and leaves such elements, and the L-tree has a root of `n` bytes.
-/

namespace MerkleSignature.LTree

variable {n : Nat}

/-- Every element of a buffer has `n` bytes. -/
def Uniform (n : Nat) (buffer : Array Bytes) : Prop := ∀ element ∈ buffer, element.length = n

/-- A computation succeeds with a uniform buffer of a given size. -/
def KeepsUniform (n size : Nat) (x : Except Error (Array Bytes)) : Prop :=
  ∃ buffer, x = .ok buffer ∧ buffer.size = size ∧ Uniform n buffer

/-- An element inside a uniform buffer has `n` bytes. -/
theorem Uniform.length_getD {buffer : Array Bytes} (h : Uniform n buffer) {i : Nat}
    (hi : i < buffer.size) : (buffer.getD i []).length = n := by
  rw [Array.getD_eq_getD_getElem?, Array.getElem?_eq_getElem hi, Option.getD_some]
  exact h _ (Array.getElem_mem hi)

/-- Writing an element of `n` bytes keeps a buffer uniform. -/
theorem Uniform.setIfInBounds {buffer : Array Bytes} (h : Uniform n buffer) (i : Nat)
    {element : Bytes} (helement : element.length = n) :
    Uniform n (buffer.setIfInBounds i element) := by
  intro other hother
  rcases Array.mem_or_eq_of_mem_setIfInBounds hother with hold | rfl
  · exact h other hold
  · exact helement

section Rounds

variable {pair : Nat → Bytes → Bytes → Except Error Bytes}

/-- Joining pairs that lie in the buffer keeps it uniform. -/
theorem joinPairs_keepsUniform
    (hpair : ∀ index left right, left.length = n → right.length = n →
      Yields n (pair index left right))
    {count index : Nat} {buffer : Array Bytes} (hbuffer : Uniform n buffer)
    (hfit : 2 * (index + count) ≤ buffer.size) :
    KeepsUniform n buffer.size (joinPairs pair count index buffer) := by
  induction count generalizing index buffer with
  | zero => exact ⟨buffer, rfl, rfl, hbuffer⟩
  | succ count ih =>
    have hleft := hbuffer.length_getD (show 2 * index < buffer.size by omega)
    have hright := hbuffer.length_getD (show 2 * index + 1 < buffer.size by omega)
    obtain ⟨parent, hparent, hlength⟩ := hpair index _ _ hleft hright
    rw [joinPairs, hparent, ok_bind]
    have hsize : (buffer.setIfInBounds index parent).size = buffer.size :=
      Array.size_setIfInBounds ..
    rw [← hsize]
    exact ih (hbuffer.setIfInBounds index hlength) (by omega)

/-- A round keeps the buffer uniform. -/
theorem round_keepsUniform
    (hpair : ∀ index left right, left.length = n → right.length = n →
      Yields n (pair index left right))
    {length : Nat} {buffer : Array Bytes} (hbuffer : Uniform n buffer)
    (hlength : length ≤ buffer.size) :
    KeepsUniform n buffer.size (round pair length buffer) := by
  obtain ⟨joined, hjoined, hsize, huniform⟩ :=
    joinPairs_keepsUniform hpair hbuffer (show 2 * (0 + length / 2) ≤ buffer.size by omega)
  rw [round, hjoined, ok_bind]
  split
  · refine ⟨_, rfl, ?_, ?_⟩
    · rw [Array.size_setIfInBounds, hsize]
    · exact huniform.setIfInBounds _ (huniform.length_getD (by omega))
  · exact ⟨joined, rfl, hsize, huniform⟩

end Rounds

/-- The rounds of an L-tree keep the buffer uniform. -/
theorem compress_keepsUniform {join : Join}
    (hjoin : ∀ height index left right, left.length = n → right.length = n →
      Yields n (join height index left right))
    {height length : Nat} {buffer : Array Bytes} (hbuffer : Uniform n buffer)
    (hlength : length ≤ buffer.size) :
    KeepsUniform n buffer.size (compress join height length buffer) := by
  induction length using Nat.strongRecOn generalizing height buffer with
  | ind length ih =>
    rw [compress]
    split
    · exact ⟨buffer, rfl, rfl, hbuffer⟩
    · obtain ⟨after, hafter, hsize, huniform⟩ :=
        round_keepsUniform (hjoin height) hbuffer hlength
      rw [hafter, ok_bind, ← hsize]
      exact ih ((length + 1) / 2) (by omega) huniform (by omega)

section Root

variable {d : Digest} {publicKey publicSeed : Bytes}

/-- A public key that does not consist of `n`-byte elements is refused. -/
theorem root_of_unfit (h : publicKey = [] ∨ ¬ d.size ∣ publicKey.length) (position : TreePosition)
    (leaf : Nat) :
    root d publicKey publicSeed position leaf =
      .error (.invalidLength "WOTS+ public key"
        (d.size * max ((publicKey.length + d.size - 1) / d.size) 1) publicKey.length) := by
  rw [Nat.dvd_iff_mod_eq_zero] at h
  rw [root, if_pos h]

/-- The root of the L-tree of some `n`-byte elements is what its rounds leave at the front of the
buffer. -/
theorem root_of_fit (hne : publicKey ≠ []) (hdvd : d.size ∣ publicKey.length)
    (position : TreePosition) (leaf : Nat) :
    root d publicKey publicSeed position leaf =
      compress (d.lTreeJoin publicSeed position leaf) 0 (chunks d.size publicKey).length
        (chunks d.size publicKey).toArray >>= fun buffer => .ok (buffer.getD 0 []) := by
  have hchecked : ¬ (publicKey = [] ∨ publicKey.length % d.size ≠ 0) := by
    rintro (hnil | hrest)
    · exact hne hnil
    · exact hrest (Nat.mod_eq_zero_of_dvd hdvd)
  rw [root, if_neg hchecked]
  rfl

/-- The elements of a public key have `n` bytes. -/
theorem uniform_chunks (d : Digest) (publicKey : Bytes) :
    Uniform d.size (chunks d.size publicKey).toArray := by
  intro element helement
  rw [List.mem_toArray] at helement
  exact length_of_mem_pieces (Nat.mul_div_le _ _) helement

/-- A public key of some elements has a first one. -/
theorem length_chunks_pos (hne : publicKey ≠ []) (hdvd : d.size ∣ publicKey.length) :
    0 < (chunks d.size publicKey).length := by
  rw [chunks, length_pieces]
  exact Nat.div_pos (Nat.le_of_dvd (List.length_pos_iff.2 hne) hdvd) d.size_pos

/-- The L-tree of a public key of some `n`-byte elements has a root of `n` bytes. -/
theorem root_yields (hseed : publicSeed.length = d.size) (hne : publicKey ≠ [])
    (hdvd : d.size ∣ publicKey.length) (position : TreePosition) (leaf : Nat) :
    Yields d.size (root d publicKey publicSeed position leaf) := by
  have hcompress : KeepsUniform d.size (chunks d.size publicKey).toArray.size
      (compress (d.lTreeJoin publicSeed position leaf) 0 (chunks d.size publicKey).length
        (chunks d.size publicKey).toArray) :=
    compress_keepsUniform
      (fun height index left right hleft hright => Digest.joinNodes_yields hseed hleft hright _)
      (uniform_chunks d publicKey) (Nat.le_of_eq List.size_toArray.symm)
  obtain ⟨buffer, hbuffer, hsize, hafter⟩ := hcompress
  rw [root_of_fit hne hdvd, hbuffer]
  exact yields_ok (hafter.length_getD (hsize ▸ length_chunks_pos hne hdvd))

end Root

end MerkleSignature.LTree
