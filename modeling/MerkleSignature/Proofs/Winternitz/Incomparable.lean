import MerkleSignature.Proofs.Winternitz.Exact
import MerkleSignature.Proofs.Winternitz.OneTime

/-!
# Digits of different blocks are incomparable

Parameters can be made for every size of blocks and both widths as long as the largest checksum
fits a 32-bit word. Their digits have the number and the range that the chains of a one-time key
provide for. Of two different blocks, each has a digit below the digit of the other at the same
place. Who knows the signature of one block would therefore have to walk some chain backwards to
sign the other.
-/

namespace MerkleSignature.Winternitz

/-- Each of two lists of digits has a digit below the digit of the other at the same place. -/
def Incomparable (digits digits' : List Nat) : Prop :=
  (∃ (i : Nat) (hi : i < digits.length) (hi' : i < digits'.length), digits[i] < digits'[i]) ∧
    ∃ (j : Nat) (hj : j < digits.length) (hj' : j < digits'.length), digits'[j] < digits[j]

namespace Params

/-- The digits of different blocks are incomparable, if the largest checksum fits its word. -/
theorem incomparable_of_ne {p : Params} (hfit : p.ChecksumFits) {block block' : Bytes}
    (hne : block ≠ block') {digits digits' : List Nat}
    (hdigits : p.messageDigits block = .ok digits)
    (hdigits' : p.messageDigits block' = .ok digits') : Incomparable digits digits' := by
  constructor
  · exact exists_digit_lt hfit hne hdigits hdigits'
  · obtain ⟨j, hj', hj, hlt⟩ := exists_digit_lt hfit hne.symm hdigits' hdigits
    exact ⟨j, hj, hj', hlt⟩

/-- For both widths and every size of blocks for which the largest checksum fits a 32-bit word there
are parameters, and with these every block has as many digits as there are chains, each of them a
position on its chain. The digits of different blocks are incomparable. -/
theorem messageDigits_incomparable {n w : Nat} (hw : w = 4 ∨ w = 16) (hn : 1 ≤ n)
    (hfit : 8 * n / Nat.log2 w * (w - 1) < 2 ^ 32) :
    ∃ p, Params.new n w = .ok p ∧ p.n = n ∧ p.w = w ∧
      ∀ block block' : Bytes, block.length = n → block'.length = n → block ≠ block' →
        ∃ digits digits', p.messageDigits block = .ok digits ∧
          p.messageDigits block' = .ok digits' ∧
          digits.length = p.messageLength + p.checksumLength ∧
          digits'.length = p.messageLength + p.checksumLength ∧
          (∀ digit ∈ digits, digit ≤ w - 1) ∧ (∀ digit ∈ digits', digit ≤ w - 1) ∧
          Incomparable digits digits' := by
  obtain ⟨p, hnew, rfl, rfl, hbits⟩ := exists_new hw hn hfit
  refine ⟨p, hnew, rfl, rfl, ?_⟩
  intro block block' hblock hblock' hne
  have hchecksum : p.ChecksumFits := by
    rw [ChecksumFits, hbits]
    exact hfit
  obtain ⟨digits, hdigits, hlength, hbound⟩ := p.exists_messageDigits hblock
  obtain ⟨digits', hdigits', hlength', hbound'⟩ := p.exists_messageDigits hblock'
  exact ⟨digits, digits', hdigits, hdigits', hlength, hlength', hbound, hbound',
    incomparable_of_ne hchecksum hne hdigits hdigits'⟩

/-- The digits of the block of zero bytes and of the block of largest bytes, of 32 bytes each, in
base 16: the message digits of the first are smaller, the checksum digits of the second. -/
theorem messageDigits_incomparable_zero_max :
    (16 = 4 ∨ 16 = 16) ∧ 1 ≤ 32 ∧ 8 * 32 / Nat.log2 16 * (16 - 1) < 2 ^ 32 ∧
      List.replicate 32 (0 : UInt8) ≠ List.replicate 32 255 ∧
      ∃ p digits digits', Params.new 32 16 = .ok p ∧
        p.messageDigits (List.replicate 32 0) = .ok digits ∧
        p.messageDigits (List.replicate 32 255) = .ok digits' ∧
        digits.length = p.messageLength + p.checksumLength ∧
        digits'.length = p.messageLength + p.checksumLength ∧
        (∀ digit ∈ digits, digit ≤ 16 - 1) ∧ (∀ digit ∈ digits', digit ≤ 16 - 1) ∧
        Incomparable digits digits' := by
  have hne : List.replicate 32 (0 : UInt8) ≠ List.replicate 32 255 := by decide
  obtain ⟨p, hnew, -, -, hblocks⟩ :=
    messageDigits_incomparable (n := 32) (w := 16) (.inr rfl) (by decide) (by decide)
  obtain ⟨digits, digits', h⟩ :=
    hblocks _ _ List.length_replicate List.length_replicate hne
  exact ⟨.inr rfl, by decide, by decide, hne, p, digits, digits', hnew, h⟩

end Params

end MerkleSignature.Winternitz
