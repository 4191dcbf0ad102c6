import Mathlib.Data.List.Forall2
import MerkleSignature.Proofs.Bytes.Digits
import MerkleSignature.Proofs.Outcome
import MerkleSignature.Winternitz.Digits

/-!
# The checksum makes digits incomparable

The checksum digits of a block spell how far its message digits are from their largest value,
exactly, as long as the largest checksum fits its word. Raising some message digits brings this
number down, so one of its digits falls. Two blocks therefore each have a digit that is smaller than
the same digit of the other.
-/

namespace MerkleSignature.Winternitz

/-- How far digits in base `w` are from their largest value, added up. -/
def shortfall (w : Nat) (digits : List Nat) : Nat := (digits.map fun digit => w - 1 - digit).sum

theorem shortfall_cons (w digit : Nat) (digits : List Nat) :
    shortfall w (digit :: digits) = w - 1 - digit + shortfall w digits := by
  simp [shortfall]

/-- Digits fall short by at most the largest value each. -/
theorem shortfall_le (w : Nat) (digits : List Nat) :
    shortfall w digits ≤ digits.length * (w - 1) := by
  induction digits with
  | nil => simp [shortfall]
  | cons digit digits ih =>
    rw [shortfall_cons, List.length_cons, Nat.succ_mul]
    omega

/-- The checksum is the shortfall, if that fits the word. -/
theorem toNat_checksum {w : Nat} (hw : 0 < w) (hword : w < 2 ^ 32) {digits : List Nat}
    (hdigits : ∀ digit ∈ digits, digit < w) (hfit : shortfall w digits < 2 ^ 32) :
    (checksum w digits).toNat = shortfall w digits := by
  induction digits with
  | nil => rfl
  | cons digit digits ih =>
    have hdigit : digit < w := hdigits digit List.mem_cons_self
    rw [shortfall_cons] at hfit ⊢
    have hrest := ih (fun d h => hdigits d (List.mem_cons_of_mem _ h)) (by omega)
    have hcons : checksum w (digit :: digits) =
        UInt32.ofNat w - 1 - UInt32.ofNat digit + checksum w digits := rfl
    have hhead : (UInt32.ofNat w - 1 - UInt32.ofNat digit).toNat = w - 1 - digit := by
      rw [UInt32.toNat_sub, UInt32.toNat_sub, UInt32.toNat_ofNat', UInt32.toNat_ofNat',
        UInt32.toNat_one]
      omega
    rw [hcons, UInt32.toNat_add, hhead, hrest, Nat.mod_eq_of_lt hfit]

/-- Larger digits fall short by less. -/
theorem shortfall_anti (w : Nat) {first second : List Nat}
    (h : List.Forall₂ (· ≤ ·) first second) : shortfall w second ≤ shortfall w first := by
  induction h with
  | nil => exact Nat.le_refl _
  | cons hle _ ih =>
    rw [shortfall_cons, shortfall_cons]
    omega

/-- Larger digits that do not fall short by less are the same digits. -/
theorem eq_of_shortfall_le {w : Nat} {first second : List Nat}
    (h : List.Forall₂ (· ≤ ·) first second) (hsecond : ∀ digit ∈ second, digit < w)
    (hle : shortfall w first ≤ shortfall w second) : first = second := by
  induction h with
  | nil => rfl
  | @cons d e first second hde hrest ih =>
    rw [shortfall_cons, shortfall_cons] at hle
    have hanti := shortfall_anti w hrest
    have htop : e < w := hsecond e List.mem_cons_self
    have htail := ih (fun digit hdigit => hsecond digit (List.mem_cons_of_mem _ hdigit)) (by omega)
    rw [htail, show d = e by omega]

namespace Params

variable (p : Params)

/-- A digit is as wide as a divisor of a byte. -/
theorem digitBits_dvd : p.digitBits ∣ 8 := by
  unfold digitBits
  cases p.width <;> decide

theorem w_eq : p.w = 2 ^ p.digitBits := rfl

/-- A digit has at least one bit and at most four. -/
theorem digitBits_mem : p.digitBits = 2 ∨ p.digitBits = 4 := by
  unfold digitBits
  cases p.width
  · exact .inl rfl
  · exact .inr rfl

theorem digitBits_pos : 0 < p.digitBits := Nat.pos_of_dvd_of_pos p.digitBits_dvd (by decide)

/-- The digits of a block are its message digits and the digits of their checksum. -/
theorem messageDigits_eq_ok_iff {p : Params} {block : Bytes} {digits : List Nat} :
    p.messageDigits block = .ok digits ↔ block.length = p.n ∧
      digits = Bytes.digits p.digitBits p.messageLength block ++
        p.checksumDigits (Bytes.digits p.digitBits p.messageLength block) := by
  rw [messageDigits, checkLength_bind_eq_ok_iff, eq_comm (a := digits)]
  simp

/-- The largest checksum fits its word. -/
def ChecksumFits : Prop := 8 * p.n / p.digitBits * (p.w - 1) < 2 ^ 32

/-- The largest checksum of blocks as long as the output of a digest fits. -/
theorem checksumFits_ofDigest (d : Digest) (width : Width) : (ofDigest d width).ChecksumFits := by
  unfold ChecksumFits
  cases d <;> cases width <;> decide

/-- The shifted checksum digits fill their bytes, and these fit a word. -/
theorem checksumBits_add_shift :
    p.digitBits * p.checksumLength + p.checksumShift = 8 * p.checksumBytes ∧
      p.checksumBytes ≤ 4 := by
  have hlog : Nat.log2 (largestChecksum p.n p.width) < 32 := by
    rw [Nat.log2_lt p.largestChecksum_pos.ne']
    exact Nat.mod_lt _ (by decide)
  rw [checksumBytes, checksumShift, checksumLength]
  rcases p.digitBits_mem with h | h <;> rw [h] <;> omega

/-- The bytes of the shifted checksum have room for its digits and for the shift. -/
theorem pow_checksumBytes :
    256 ^ p.checksumBytes = 2 ^ (p.digitBits * p.checksumLength) * 2 ^ p.checksumShift := by
  rw [← Nat.pow_add, p.checksumBits_add_shift.1, Nat.pow_mul]

variable {p} (hfit : p.ChecksumFits)
include hfit

/-- The message digits take up the bits of a block. -/
theorem digitBits_mul_messageLength : p.digitBits * p.messageLength = 8 * p.n := by
  have hsmall : 8 * p.n < 2 ^ 64 := by
    rw [ChecksumFits, w_eq] at hfit
    rcases p.digitBits_mem with h | h <;> rw [h] at hfit <;> omega
  rw [messageLength, blockDigits, Nat.mod_eq_of_lt hsmall]
  exact Nat.mul_div_cancel' (p.digitBits_dvd.trans (Nat.dvd_mul_right 8 p.n))

/-- The largest checksum is that of digits which are all zero. -/
theorem largestChecksum_eq : largestChecksum p.n p.width = p.messageLength * (p.w - 1) := by
  have hsmall : p.messageLength * (p.w - 1) < 2 ^ 32 := by
    have hlength : p.messageLength = 8 * p.n / p.digitBits := by
      rw [← digitBits_mul_messageLength hfit]
      exact (Nat.mul_div_cancel_left _ p.digitBits_pos).symm
    rw [hlength]
    exact hfit
  exact Nat.mod_eq_of_lt hsmall

/-- What digits fall short by has no more digits than the checksum. -/
theorem shortfall_lt {digits : List Nat} (hlength : digits.length = p.messageLength) :
    shortfall p.w digits < 2 ^ (p.digitBits * p.checksumLength) := by
  have hle := shortfall_le p.w digits
  rw [hlength, ← largestChecksum_eq hfit] at hle
  refine Nat.lt_of_lt_of_le (Nat.lt_of_le_of_lt hle Nat.lt_log2_self) ?_
  refine Nat.pow_le_pow_right (by decide) ?_
  rw [checksumLength]
  rcases p.digitBits_mem with h | h <;> rw [h] <;> omega

section Words

variable {digits : List Nat} (hlength : digits.length = p.messageLength)
include hlength

/-- What digits fall short by fits the bytes of the checksum, also when it is shifted. -/
theorem shortfall_mul_lt :
    shortfall p.w digits * 2 ^ p.checksumShift < 256 ^ p.checksumBytes := by
  rw [p.pow_checksumBytes]
  exact Nat.mul_lt_mul_of_pos_right (shortfall_lt hfit hlength) (Nat.two_pow_pos _)

/-- Shifting what digits fall short by stays inside a 32-bit word. -/
theorem shortfall_mul_lt_word : shortfall p.w digits * 2 ^ p.checksumShift < 2 ^ 32 :=
  (shortfall_mul_lt hfit hlength).trans_le
    (Nat.pow_le_pow_right (by decide) p.checksumBits_add_shift.2)

variable (hdigits : ∀ digit ∈ digits, digit < p.w)
include hdigits

/-- The checksum word holds what the digits fall short by. -/
theorem toNat_checksum_eq : (checksum p.w digits).toNat = shortfall p.w digits := by
  have hw : 0 < p.w ∧ p.w < 2 ^ 32 := by
    rw [w_eq]
    rcases p.digitBits_mem with h | h <;> rw [h] <;> decide
  apply toNat_checksum hw.1 hw.2 hdigits
  apply Nat.lt_of_le_of_lt _ (shortfall_mul_lt_word hfit hlength)
  exact Nat.le_mul_of_pos_right _ (Nat.two_pow_pos _)

/-- The shift of the checksum word loses no bit. -/
theorem toNat_shifted_checksum :
    (checksum p.w digits <<< UInt32.ofNat p.checksumShift).toNat =
      shortfall p.w digits * 2 ^ p.checksumShift := by
  have hshift : p.checksumShift < 32 := by
    rw [checksumShift]
    omega
  have hcount : (UInt32.ofNat p.checksumShift).toNat % 32 = p.checksumShift := by
    rw [UInt32.toNat_ofNat']
    omega
  rw [UInt32.toNat_shiftLeft, toNat_checksum_eq hfit hlength hdigits, hcount, Nat.shiftLeft_eq,
    Nat.mod_eq_of_lt (shortfall_mul_lt_word hfit hlength)]

/-- The checksum digits spell what the message digits fall short by. -/
theorem spell_checksumDigits :
    Bytes.spell p.w (p.checksumDigits digits) = shortfall p.w digits := by
  rw [checksumDigits, w_eq, Bytes.spell_digits p.digitBits_dvd, ← w_eq,
    toNat_shifted_checksum hfit hlength hdigits,
    Bytes.ofBigEndian_toBigEndian (shortfall_mul_lt hfit hlength), Bytes.length_toBigEndian,
    p.pow_checksumBytes, Nat.mul_assoc, Nat.mul_comm (2 ^ p.checksumShift)]
  exact Nat.mul_div_cancel _ (Nat.mul_pos (Nat.two_pow_pos _) (Nat.two_pow_pos _))

end Words

/-- A block has at least one digit below the digit of any other block. -/
theorem exists_digit_lt {a b : Bytes} (hne : a ≠ b) {digits digits' : List Nat}
    (hdigits : p.messageDigits a = .ok digits) (hdigits' : p.messageDigits b = .ok digits') :
    ∃ (i : Nat) (hi : i < digits.length) (hi' : i < digits'.length), digits[i] < digits'[i] := by
  obtain ⟨hlength, hdigits⟩ := messageDigits_eq_ok_iff.1 hdigits
  obtain ⟨hlength', hdigits'⟩ := messageDigits_eq_ok_iff.1 hdigits'
  by_contra hnone
  have hle : List.Forall₂ (· ≤ ·) digits' digits := by
    refine List.forall₂_iff_get.2 ⟨?_, fun i hi hi' => ?_⟩
    · simp [hdigits, hdigits', checksumDigits]
    · exact Nat.not_lt.1 fun hlt => hnone ⟨i, hi', hi, hlt⟩
  rw [hdigits, hdigits'] at hle
  -- No message digit is smaller, so the checksum is not larger; no checksum digit is smaller
  -- either, so the checksums are the same and with them all message digits.
  have hmessage := List.forall₂_take p.messageLength hle
  have hchecksum := List.forall₂_drop p.messageLength hle
  rw [List.take_left' (Bytes.length_digits ..),
    List.take_left' (Bytes.length_digits ..)] at hmessage
  rw [List.drop_left' (Bytes.length_digits ..),
    List.drop_left' (Bytes.length_digits ..)] at hchecksum
  have hbound : ∀ block, ∀ digit ∈ Bytes.digits p.digitBits p.messageLength block, digit < p.w :=
    fun _ _ h => Bytes.digits_lt h
  have hspell := Bytes.spell_le_spell p.w hchecksum
  rw [spell_checksumDigits hfit (Bytes.length_digits ..) (hbound b),
    spell_checksumDigits hfit (Bytes.length_digits ..) (hbound a)] at hspell
  have hsame := eq_of_shortfall_le hmessage (hbound a) hspell
  refine hne (Bytes.digits_inj p.digitBits_dvd (hlength.trans hlength'.symm) ?_ hsame.symm)
  rw [digitBits_mul_messageLength hfit, hlength]

end Params

end MerkleSignature.Winternitz
