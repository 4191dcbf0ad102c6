import MerkleSignature.Proofs.Bounded.Digest
import MerkleSignature.Proofs.Bounded.Digits
import MerkleSignature.Proofs.Winternitz.OneTime

/-!
# One-time signatures within bounds

A walk on a chain masks each element in one buffer, which it keeps from step to step and which has
room for the output of every digest. It is asked for the end of the chain before its steps are
added up, so that their sum fits its word. A digit is the position on a chain, so it can be taken
from the last position.
-/

namespace MerkleSignature.Winternitz.OneTime

open Bounded

variable {s : OneTime} {position : TreePosition} {leaf i : Nat}

/-- Walk some steps from a position, with a buffer for the masked elements. -/
def boundedWalk (s : OneTime) (position : TreePosition) (leaf chain : Nat) :
    (buffer : Bytes) → (start steps : Nat) → Bytes → Bounded Bytes
  | _, _, 0, element => pure element
  | buffer, start, steps + 1, element => do
    let address := position.oneTimeAddress leaf chain start
    let key ← s.digest.boundedPrfAddress s.publicSeed address
    let bitmask ← s.digest.boundedPrfAddress s.publicSeed (address.withKeyAndMask 1)
    let buffer ← copy buffer 0 s.digest.size element
    let buffer ← mask buffer 0 s.digest.size bitmask
    let following ← s.digest.boundedChainHash key (← slice buffer 0 s.digest.size)
    s.boundedWalk position leaf chain buffer (start + 1) steps following

/-- Walk some steps from a position, within the chain and from an `n`-byte element. -/
def boundedChain (s : OneTime) (element : Bytes) (start steps : Nat) (position : TreePosition)
    (leaf chain : Nat) : Bounded Bytes := do
  let last ← subtract s.params.w 1
  if last < start + steps then throw (.chainOutOfRange start steps s.params.w)
  else do
    checkLength "chain input" element s.params.n
    let stop ← addWord start steps
    s.boundedWalk position leaf chain (List.replicate maxDigestSize 0) start (stop - start) element

/-- The public key that a signature of a block commits to. -/
def boundedRecover (s : OneTime) (signature block : Bytes) (position : TreePosition)
    (leaf : Nat) : Bounded Bytes := do
  checkLength "WOTS+ signature" signature s.params.signatureSize
  let digits ← s.params.boundedMessageDigits block
  let last ← subtract s.params.w 1
  let elements ← cut s.params.n signature
  let ends ← (elements.zip digits).zipIdx.mapM fun ((element, digit), i) => do
    s.boundedChain element digit (← subtract last digit) position leaf i
  return ends.flatten

/-- A walk from an element of `n` bytes stays within its bounds, whatever its buffer holds. -/
theorem boundedWalk_eq {buffer element : Bytes} (hbuffer : s.digest.size ≤ buffer.length)
    (helement : element.length = s.digest.size) (start steps : Nat) :
    s.boundedWalk position leaf i buffer start steps element =
      liftM (s.walk position leaf i start steps element) := by
  induction steps generalizing buffer element start with
  | zero => rfl
  | succ steps ih =>
    simp only [boundedWalk, walk, next, bind_assoc, Digest.boundedPrfAddress_eq,
      Digest.boundedChainHash_eq]
    refine lift_bind_eq fun key _ => lift_bind_eq fun bitmask hbitmask => ?_
    have hlength := Digest.length_of_prf hbitmask
    have htake : (buffer.take s.digest.size).length = s.digest.size :=
      List.length_take_of_le hbuffer
    rw [← List.take_append_drop s.digest.size buffer, copy_front htake (helement.trans htake.symm),
      pure_bind, mask_front helement (helement.trans hlength.symm), pure_bind,
      slice_front (by simp; omega), pure_bind]
    exact lift_bind_eq fun following hfollowing =>
      ih (by simp; omega) (Digest.length_of_chainHash hfollowing) (start + 1)

/-- The last position of a chain is below the range of a word. -/
theorem w_mem (s : OneTime) : 1 ≤ s.params.w ∧ s.params.w ≤ 16 := by
  change 1 ≤ s.width.base ∧ s.width.base ≤ 16
  cases s.width <;> decide

/-- A chain stays within its bounds, wherever it is asked to go. -/
theorem boundedChain_eq (element : Bytes) (start steps : Nat) :
    s.boundedChain element start steps position leaf i =
      liftM (s.chain element start steps position leaf i) := by
  obtain ⟨hpos, hsmall⟩ := s.w_mem
  rw [boundedChain, subtract_eq hpos, pure_bind, chain]
  split
  · rfl
  next hwithin =>
    refine lift_bind_eq fun _ helement => ?_
    replace helement : element.length = s.digest.size := length_eq_of_checkLength helement
    have hbuffer : s.digest.size ≤ (List.replicate maxDigestSize (0 : UInt8)).length := by
      rw [List.length_replicate]
      exact s.digest.size_le
    rw [addWord_eq (by omega), pure_bind, Nat.add_sub_cancel_left,
      boundedWalk_eq hbuffer helement]

/-- Recovering a public key stays within its bounds, whatever the signature and the block. -/
theorem boundedRecover_eq (signature block : Bytes) (position : TreePosition) (leaf : Nat) :
    s.boundedRecover signature block position leaf =
      liftM (s.recover signature block position leaf) := by
  have hpos := s.w_mem.1
  have hn : s.params.n ≠ 0 := s.digest.size_pos.ne'
  have hfit : s.params.ChecksumFits := Params.checksumFits_ofDigest s.digest s.width
  rw [boundedRecover, Params.boundedMessageDigits_eq hfit]
  refine lift_bind_eq fun _ _ => lift_bind_eq fun digits hdigits => ?_
  rw [subtract_eq hpos, pure_bind, cut_eq hn, pure_bind]
  have hblock := (Params.messageDigits_eq_ok_iff.1 hdigits).1
  obtain ⟨_, hdigits', -, hbound⟩ := s.params.exists_messageDigits hblock
  obtain rfl := Except.ok.inj (hdigits'.symm.trans hdigits)
  rw [mapM_eq_lift fun entry hentry => ?_]
  · exact lift_bind_eq fun ends _ => rfl
  · obtain ⟨⟨element, digit⟩, i⟩ := entry
    have hdigit := hbound digit (List.of_mem_zip (List.fst_mem_of_mem_zipIdx hentry)).2
    dsimp only
    rw [subtract_eq hdigit, pure_bind, boundedChain_eq]

end MerkleSignature.Winternitz.OneTime
