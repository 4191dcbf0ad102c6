import Mathlib.Order.Bounds.Basic
import MerkleSignature.Proofs.Winternitz.Checksum

/-!
# Lengths and digits are exact

Parameters can be made for both widths and for every size of blocks whose largest checksum fits a
32-bit word. The number of checksum digits is then the least one for which no checksum is too large.
Nothing is lost on the way to the digits of a block: the checksum fits its word, its shift drops no
bit, the shifted checksum fits its bytes, and the digits spell the block and the checksum.
-/

namespace MerkleSignature.Winternitz

namespace Params

/-- The widths are those of the bases 4 and 16. -/
theorem exists_width {w : Nat} (hw : w = 4 ∨ w = 16) :
    ∃ width : Width, Width.ofBase w = .ok width ∧ width.base = w ∧ width.bits = Nat.log2 w := by
  rcases hw with rfl | rfl
  · exact ⟨.four, rfl, rfl, by decide⟩
  · exact ⟨.sixteen, rfl, rfl, by decide⟩

/-- There are parameters for every size of blocks whose largest checksum fits its word. -/
theorem exists_new {n w : Nat} (hw : w = 4 ∨ w = 16) (hn : 1 ≤ n)
    (hfit : 8 * n / Nat.log2 w * (w - 1) < 2 ^ 32) :
    ∃ p, Params.new n w = .ok p ∧ p.n = n ∧ p.w = w ∧ p.digitBits = Nat.log2 w := by
  obtain ⟨width, hwidth, hbase, hbits⟩ := exists_width hw
  have hlog : Nat.log2 w = 2 ∨ Nat.log2 w = 4 := by
    rcases hw with rfl | rfl <;> decide
  have htop : 0 < w - 1 := by omega
  have hcount : 8 * n / Nat.log2 w < 2 ^ 32 := (Nat.le_mul_of_pos_right _ htop).trans_lt hfit
  -- So neither the number of bits nor the largest checksum exceeds its word.
  have hdigits : blockDigits n width = 8 * n / Nat.log2 w := by
    rw [blockDigits, hbits, Nat.mod_eq_of_lt]
    rcases hlog with h | h <;> rw [h] at hcount <;> omega
  have hpos : 0 < largestChecksum n width := by
    rw [largestChecksum, hdigits, hbase, Nat.mod_eq_of_lt hfit]
    apply Nat.mul_pos _ htop
    rcases hlog with h | h <;> rw [h] <;> omega
  refine ⟨⟨n, width, hpos⟩, ?_, rfl, hbase, hbits⟩
  rw [new, hwidth, ok_bind, dif_pos hpos]
  rfl

/-- As many digits as a checksum has, and no fewer, hold the largest checksum. -/
theorem largestChecksum_lt_iff (p : Params) (count : Nat) :
    largestChecksum p.n p.width < p.w ^ count ↔ p.checksumLength ≤ count := by
  rw [w_eq, ← Nat.pow_mul, ← Nat.log2_lt p.largestChecksum_pos.ne', checksumLength, Nat.succ_le_iff,
    Nat.div_lt_iff_lt_mul p.digitBits_pos, Nat.mul_comm]

/-- The number of checksum digits is the least that holds the checksum of digits which are all
zero. -/
theorem isLeast_checksumLength {p : Params} (hfit : p.ChecksumFits) :
    IsLeast {count | p.messageLength * (p.w - 1) < p.w ^ count} p.checksumLength := by
  rw [← largestChecksum_eq hfit]
  constructor
  · exact (p.largestChecksum_lt_iff _).2 (Nat.le_refl _)
  · intro count hcount
    exact (p.largestChecksum_lt_iff count).1 hcount

/-- The message digits and the checksum digits of a block hold the block and how far its digits fall
short, and no word or byte on the way is too small. -/
structure ExactDigits (p : Params) (block : Bytes) (message checks : List Nat) : Prop where
  length_message : message.length = p.messageLength
  length_checks : checks.length = p.checksumLength
  digit_lt : ∀ digit ∈ message ++ checks, digit < p.w
  toNat_checksum : (checksum p.w message).toNat = shortfall p.w message
  toNat_shifted : (checksum p.w message <<< UInt32.ofNat p.checksumShift).toNat =
    shortfall p.w message * 2 ^ p.checksumShift
  shifted_lt : shortfall p.w message * 2 ^ p.checksumShift < 256 ^ p.checksumBytes
  spell_message : Bytes.spell p.w message = Bytes.ofBigEndian block
  spell_checks : Bytes.spell p.w checks = shortfall p.w message

/-- The digits of a block are exact, if the largest checksum fits its word. -/
theorem exactDigits {p : Params} (hfit : p.ChecksumFits) {block : Bytes}
    (hblock : block.length = p.n) :
    p.ExactDigits block (Bytes.digits p.digitBits p.messageLength block)
      (p.checksumDigits (Bytes.digits p.digitBits p.messageLength block)) := by
  have hlength : (Bytes.digits p.digitBits p.messageLength block).length = p.messageLength :=
    Bytes.length_digits ..
  have hdigits : ∀ digit ∈ Bytes.digits p.digitBits p.messageLength block, digit < p.w :=
    fun digit h => Bytes.digits_lt h
  exact {
    length_message := hlength
    length_checks := Bytes.length_digits ..
    digit_lt := by
      intro digit h
      rcases List.mem_append.1 h with hmessage | hchecks
      · exact hdigits digit hmessage
      · exact Bytes.digits_lt hchecks
    toNat_checksum := toNat_checksum_eq hfit hlength hdigits
    toNat_shifted := toNat_shifted_checksum hfit hlength hdigits
    shifted_lt := shortfall_mul_lt hfit hlength
    spell_message := by
      apply Bytes.spell_digits_of_eq p.digitBits_dvd
      rw [digitBits_mul_messageLength hfit, hblock]
    spell_checks := spell_checksumDigits hfit hlength hdigits }

/-- For both widths and every size of blocks whose largest checksum fits a 32-bit word there are
parameters. They have one message digit for every digit of a block, and the least number of checksum
digits that hold the largest checksum. All blocks have exact digits with them. -/
theorem lengths_and_digits_exact {n w : Nat} (hw : w = 4 ∨ w = 16) (hn : 1 ≤ n)
    (hfit : 8 * n / Nat.log2 w * (w - 1) < 2 ^ 32) :
    ∃ p, Params.new n w = .ok p ∧ p.n = n ∧ p.w = w ∧ p.messageLength = 8 * n / Nat.log2 w ∧
      IsLeast {count | p.messageLength * (w - 1) < w ^ count} p.checksumLength ∧
      p.checksumBytes ≤ 4 ∧
      ∀ block : Bytes, block.length = n → ∃ message checks,
        p.messageDigits block = .ok (message ++ checks) ∧ p.ExactDigits block message checks := by
  obtain ⟨p, hnew, rfl, rfl, hbits⟩ := exists_new hw hn hfit
  have hchecksum : p.ChecksumFits := by
    rw [ChecksumFits, hbits]
    exact hfit
  have hpos : 0 < p.digitBits := by
    rcases p.digitBits_mem with h | h <;> omega
  refine ⟨p, hnew, rfl, rfl, ?_, isLeast_checksumLength hchecksum, p.checksumBits_add_shift.2, ?_⟩
  · rw [← hbits, ← digitBits_mul_messageLength hchecksum, Nat.mul_div_cancel_left _ hpos]
  · intro block hblock
    exact ⟨_, _, messageDigits_eq_ok_iff.2 ⟨hblock, rfl⟩, exactDigits hchecksum hblock⟩

/-- The largest blocks in base 16 whose checksum fits its word: the block of zero bytes has the
checksum `2 ^ 32 - 16`, and its digits are exact. -/
theorem lengths_and_digits_exact_largestBlock :
    (16 = 4 ∨ 16 = 16) ∧ 1 ≤ 143165576 ∧ 8 * 143165576 / Nat.log2 16 * (16 - 1) < 2 ^ 32 ∧
      ∃ p message checks, Params.new 143165576 16 = .ok p ∧
        p.messageLength = 8 * 143165576 / Nat.log2 16 ∧
        IsLeast {count | p.messageLength * (16 - 1) < 16 ^ count} p.checksumLength ∧
        p.checksumBytes ≤ 4 ∧
        p.messageDigits (List.replicate 143165576 0) = .ok (message ++ checks) ∧
        p.ExactDigits (List.replicate 143165576 0) message checks := by
  have hfit : 8 * 143165576 / Nat.log2 16 * (16 - 1) < 2 ^ 32 := by decide
  obtain ⟨p, hnew, -, -, hlength, hleast, hbytes, hblocks⟩ :=
    lengths_and_digits_exact (.inr rfl) (by decide) hfit
  obtain ⟨message, checks, hdigits, hexact⟩ :=
    hblocks (List.replicate 143165576 0) List.length_replicate
  exact ⟨.inr rfl, by decide, hfit, p, message, checks, hnew, hlength, hleast, hbytes, hdigits,
    hexact⟩

end Params

end MerkleSignature.Winternitz
